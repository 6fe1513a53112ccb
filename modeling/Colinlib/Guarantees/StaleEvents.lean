import Colinlib.Source.IoTrace

/-!
# Events and the connections they were collected for

A slot is recycled through a round-robin cursor and known by its address and state
only, so an event of a batch, a handler still to be called or the trailing close of
an error or closing callback may meet a connection that took the slot meanwhile. The
checks for `INVALID` catch the slots that stayed free. Where no step takes a slot
that pending work names, all of it reaches the connection it was meant for; a run in
which the cursor comes round shows that nothing else guards against it.
-/
namespace Colinlib.Guarantees.StaleEvents
open Colinlib.Theory Colinlib.Theory.CMemory Colinlib.Theory.Callbacks
open Colinlib.Source.IoWorld Colinlib.Source.IoService Colinlib.Source.EventLoop
open Colinlib.Source.IoChanges Colinlib.Source.IoTrace

/-! ## Pending work -/

/-- An event of the batch, or a handler of the event under dispatch, names the slot. -/
def pending (w : World) (r : Ref) : Bool :=
  w.batch.any (fun ev => ev.ud = .obj r) || w.tasks.any (fun task => task.2 = r)

/-- The code that called back closes the object afterwards. -/
def closesAfter : Notice → Bool
  | .error _ | .close _ => true
  | _ => false

/-- A callback is running after which the object in the slot is closed. -/
def closingSoon (tags : List Callback) (r : Ref) : Bool :=
  tags.any fun c => c.ref = r ∧ closesAfter c.notice

/-- The slot that the move would give to a new object, the first free one from the
cursor on, is not one that pending work names. -/
def sparing (tags : List Callback) (w : World) : Step → Bool
  | .start a _ =>
    match (Origin.mk a w).slot with
    | none => true
    | some r => !pending w r && !closingSoon tags r
  | .back _ => true

/-- Pending events and handlers name slots that hold what they held when the batch
was collected, and every object torn down is the one the code set out to close. -/
structure OnTarget (collected now : World) : Prop where
  pending : ∀ r, pending now r = true → now.lives r = collected.lives r
  closed : ∀ r life cause begun registered,
    .ended r life cause begun registered ∈ now.log → begun = life

def waits : Step → Bool
  | .start (.wait _) _ => true
  | _ => false

section Moves
variable {o : Origin} {w w' : World} {tags : List Callback} {r : Ref}

theorem pending_of_subset (batch : ∀ ev ∈ w'.batch, ev ∈ w.batch)
    (tasks : ∀ task ∈ w'.tasks, task ∈ w.tasks) (h : pending w' r = true) :
    pending w r = true := by
  simp only [pending, Bool.or_eq_true, List.any_eq_true] at h ⊢
  rcases h with ⟨ev, hev, names⟩ | ⟨task, htask, names⟩
  · exact Or.inl ⟨ev, batch ev hev, names⟩
  · exact Or.inr ⟨task, tasks task htask, names⟩

theorem pending_of_eq (batch : w'.batch = w.batch) (tasks : w'.tasks = w.tasks) :
    pending w' r = true → pending w r = true :=
  pending_of_subset (by rw [batch]; exact fun _ h => h) (by rw [tasks]; exact fun _ h => h)

/-- The handlers of an event name the slot that the event names. -/
theorem eventTasks_ref {ev : Pollevent} {s : Ref} : ∀ task ∈ eventTasks ev s, task.2 = s := by
  intro task htask
  simp only [eventTasks, List.mem_append] at htask
  rcases htask with (h | h) | h <;> split at h <;> simp_all

/-- Code other than the collection of a batch adds no pending work. -/
theorem Change.pending (h : Change o w w') (fresh : ∀ events, o.action ≠ .wait events)
    (named : pending w' r = true) : pending w r = true ∨ pending o.world r = true := by
  rcases h.work with ⟨batch, tasks⟩ | ⟨events, asked, -⟩ | ⟨ev, batch, tasks⟩ | ⟨task, tasks, batch⟩
  · exact Or.inl (pending_of_eq batch tasks named)
  · exact absurd asked (fresh events)
  · right
    have sub : ∀ e ∈ w'.batch, e ∈ o.world.batch := by
      rw [batch]
      exact fun e he => List.mem_cons_of_mem ev he
    rcases tasks with tasks | ⟨s, names, tasks⟩
    · exact pending_of_subset sub (by rw [tasks]; exact fun _ h => h) named
    · simp only [StaleEvents.pending, Bool.or_eq_true, List.any_eq_true] at named ⊢
      left
      rcases named with ⟨e, he, names'⟩ | ⟨task, htask, names'⟩
      · exact ⟨e, sub e he, names'⟩
      · rw [tasks] at htask
        have here : task.2 = s := eventTasks_ref task htask
        refine ⟨ev, by rw [batch]; exact List.mem_cons_self, ?_⟩
        rw [names, ← here, of_decide_eq_true names']
        exact decide_eq_true rfl
  · right
    refine pending_of_subset (by rw [batch]; exact fun _ h => h) ?_ named
    rw [tasks]
    exact fun t ht => List.mem_cons_of_mem task ht

theorem Reaches.pending (h : Reaches o w) (fresh : ∀ events, o.action ≠ .wait events)
    (named : pending w r = true) : pending o.world r = true := by
  induction h with
  | refl => exact named
  | tail before last ih =>
      rcases Change.pending last fresh named with earlier | found
      · exact ih earlier
      · exact found

/-- Only the slot that is taken sees a new use. -/
theorem Reaches.lives (h : Reaches o w) (other : o.slot ≠ some r) :
    w.lives r = o.world.lives r := by
  induction h with
  | refl => rfl
  | tail before last ih =>
      rcases last.lives with same | ⟨s, taken, same⟩
      · rw [same, ih]
      · have ne : r ≠ s := by
          rintro rfl
          exact other taken
        rw [same, Function.update_of_ne ne, ih]

theorem spared (admitted : sparing tags o.world (.start o.action []) = true)
    (taken : o.slot = some r) :
    pending o.world r = false ∧ closingSoon tags r = false := by
  simp only [sparing] at admitted
  rw [show (Origin.mk o.action o.world).slot = some r from taken] at admitted
  simpa using admitted

/-! ## Teardowns -/

/-- The objects to be closed after a callback are still in their slots, and those torn
down were the ones meant. -/
structure Upright (tags : List Callback) (w : World) : Prop where
  sound : Sound w
  awaited : ∀ c ∈ tags, closesAfter c.notice = true → w.lives c.ref = c.life
  closed : ∀ r life cause begun registered,
    .ended r life cause begun registered ∈ w.log → begun = life

theorem Change.closed (h : Change o w w') (before : ∀ r life cause begun registered,
    .ended r life cause begun registered ∈ w.log → begun = life) (s : Ref) (life : Nat)
    (cause : Cause) (begun : Nat) (registered : Bool)
    (ended : .ended s life cause begun registered ∈ w'.log) : begun = life := by
  obtain ⟨news, log, about⟩ := h.log
  rw [log, List.mem_append] at ended
  rcases ended with new | old
  · cases about _ new with
    | queue on => exact on.elim
    | ended => rfl
  · exact before s life cause begun registered old

/-- What follows a callback takes no slot and finds no new work. -/
theorem Resumed.rest {c : Callback} (h : Resumed c w w') :
    w'.lives = w.lives ∧ w'.batch = w.batch ∧ w'.tasks = w.tasks := by
  have ended : ∀ cause, (finished w c.ref cause c.life).lives = w.lives ∧
      (finished w c.ref cause c.life).batch = w.batch ∧
      (finished w c.ref cause c.life).tasks = w.tasks := by
    intro cause
    obtain ⟨_, same⟩ := finished_eq w c.ref cause c.life
    rw [same]
    exact ⟨rfl, rfl, rfl⟩
  cases h with
  | connect => exact ⟨rfl, rfl, rfl⟩
  | recv => exact ⟨growRecvbuf_lives w _ _, growRecvbuf_work w _ _⟩
  | error => exact ended _
  | close => exact ended _
  | gone => exact ⟨rfl, rfl, rfl⟩

/-- It holds in the runs that give no new object a slot that is about to be closed. -/
theorem Upright.keptWhere {ok : List Callback → Origin → Prop} (spares : ∀ {tags o r}, ok tags o →
    o.action.enabled tags o.world = true → o.slot = some r → closingSoon tags r = false) :
    Kept Upright ok where
  sound h := h.sound
  load _ h := ⟨h.sound.sameObjs rfl rfl rfl, h.awaited, h.closed⟩
  change {tags o w w'} underway reached h change := by
    refine ⟨change.sound h.sound, fun c hc closes => ?_, Change.closed change h.closed⟩
    have other : o.slot ≠ some c.ref := by
      intro taken
      have free := spares underway.admitted underway.enabled taken
      simp only [closingSoon, List.any_eq_false] at free
      exact free c hc (by simp [closes])
    rw [Reaches.lives (reached.change change) other]
    exact underway.holds.awaited c hc closes
  enter _ _ h now _ := by
    refine ⟨h.sound.note (Nat.le_of_eq now), fun d hd closes => ?_, ?_⟩
    · cases hd with
      | head => exact now.symm
      | tail _ hmem => exact h.awaited d hmem closes
    · intro r life cause begun registered ended
      cases ended with
      | tail _ hmem => exact h.closed r life cause begun registered hmem
  resume {c tags w w'} h resumed := by
    have here : closesAfter c.notice = true → w.lives c.ref = c.life :=
      h.awaited c List.mem_cons_self
    refine ⟨resumed.sound h.sound, fun d hd closes => ?_, ?_⟩
    · rw [(Resumed.rest resumed).1]
      exact h.awaited d (List.mem_cons_of_mem c hd) closes
    · have ends : ∀ cause, closesAfter c.notice = true → ∀ r life why begun registered,
          .ended r life why begun registered ∈ (finished w c.ref cause c.life).log →
          begun = life := by
        intro cause closes r life why begun registered ended
        rw [finished_log] at ended
        cases ended with
        | head => exact (here closes).symm
        | tail _ hmem => exact h.closed r life why begun registered hmem
      cases resumed with
      | connect => exact h.closed
      | recv =>
          rw [growRecvbuf_log]
          exact h.closed
      | error notice => exact ends _ (by rw [notice]; rfl)
      | close notice => exact ends _ (by rw [notice]; rfl)
      | gone => exact h.closed

theorem Upright.kept : Kept Upright
    fun tags o => sparing tags o.world (.start o.action []) = true :=
  Upright.keptWhere fun admitted _ taken => (spared admitted taken).2

/-! ## Pending work reaches its object -/

/-- The work still pending of a batch names slots with the uses of that time. -/
structure Stamped (uses : Ref → Nat) (tags : List Callback) (w : World) : Prop
    extends Upright tags w where
  stamped : ∀ r, pending w r = true → w.lives r = uses r

theorem Stamped.underway {uses : Ref → Nat} {quiet : List Callback → Origin → Prop}
    {tags : List Callback} {o : Origin}
    (h : Underway (Stamped uses)
      (fun tags o => sparing tags o.world (.start o.action []) = true ∧ quiet tags o) tags o) :
    Underway Upright (fun tags o => sparing tags o.world (.start o.action []) = true) tags o :=
  ⟨h.admitted.1, h.enabled, h.holds.toUpright⟩

theorem Stamped.kept (uses : Ref → Nat) : Kept (Stamped uses) fun tags o =>
    sparing tags o.world (.start o.action []) = true ∧ waits (.start o.action []) = false where
  sound h := h.sound
  load answers h := ⟨Upright.kept.load answers h.toUpright, h.stamped⟩
  change {tags o w w'} underway reached h change := by
    have fresh : ∀ events, o.action ≠ .wait events := by
      intro events asked
      have quiet := underway.admitted.2
      rw [asked] at quiet
      cases quiet
    refine ⟨Upright.kept.change (Stamped.underway underway) reached h.toUpright change, fun r named => ?_⟩
    have before := Reaches.pending (reached.change change) fresh named
    have other : o.slot ≠ some r := by
      intro taken
      rw [(spared underway.admitted.1 taken).1] at before
      cases before
    rw [Reaches.lives (reached.change change) other]
    exact underway.holds.stamped r before
  enter underway reached h now due :=
    ⟨Upright.kept.enter (Stamped.underway underway) reached h.toUpright now due, h.stamped⟩
  resume h resumed := by
    obtain ⟨lives, batch, tasks⟩ := Resumed.rest resumed
    refine ⟨Upright.kept.resume h.toUpright resumed, fun r named => ?_⟩
    rw [lives]
    exact h.stamped r (pending_of_eq batch tasks named)

theorem Upright.initially (zeroBlock : Bool) : Upright [] (coiosNew zeroBlock) := by
  constructor
  · exact Sound.initially zeroBlock
  · intro c hc
    cases hc
  · intro r life cause begun registered ended
    cases ended

theorem slot_loaded (a : Action) (answers : List Answer) (w : World) :
    (Origin.mk a (loaded answers w)).slot = (Origin.mk a w).slot := by
  have scan : ∀ kind, nextSlot (loaded answers w) kind = nextSlot w kind :=
    fun kind => nextSlot_congr kind rfl rfl
  unfold Origin.slot
  simp only [scan]

theorem sparing_loaded (tags : List Callback) (w : World) (a : Action) (answers : List Answer) :
    sparing tags (loaded answers w) (.start a []) = sparing tags w (.start a answers) := by
  simp only [sparing, slot_loaded]
  rfl

end Moves

/-! ## The cursor comes round -/

/-- A connection attempt to a name that does not resolve. -/
def unresolved : Step := .start (.call (.cotcpConnect .null none none)) [.failed enoent]

/-- What `n` such attempts leave behind: the cursor has moved on. -/
def movedOn (w : World) (n : Nat) : World :=
  { w with
    cursor := Function.update w.cursor .tcp (w.cursor .tcp + n)
    lives := fun r =>
      if r.kind = .tcp ∧ w.cursor .tcp ≤ r.idx ∧ r.idx < w.cursor .tcp + n then w.lives r + 1
      else w.lives r
    errno := if n = 0 then w.errno else enosys
    answers := if n = 0 then w.answers else [] }

theorem movedOn_one {w : World} {r : Ref} (here : r = ⟨.tcp, w.cursor .tcp⟩)
    (next : (w.cursor .tcp + 1) % 2 ^ 32 = w.cursor .tcp + 1) (free : w.objs r = blank) :
    ((answered (takeSlot (bumpCursor w .tcp) r) enoent []).setObj r blank).setErrno enosys =
      movedOn w 1 := by
  have objs : Function.update w.objs r blank = w.objs :=
    Function.update_eq_self_iff.mpr free.symm
  have lives : Function.update w.lives r (w.lives r + 1) = (movedOn w 1).lives := by
    funext s
    by_cases same : s = r
    · subst same
      simp [movedOn, here]
    · rw [Function.update_of_ne same]
      simp only [movedOn]
      rw [if_neg]
      rintro ⟨kind, low, high⟩
      obtain ⟨k, i⟩ := s
      simp only at kind low high
      exact same (by rw [here, kind, show i = w.cursor .tcp by omega])
  simp only [takeSlot, bumpCursor, answered, World.setObj, World.setErrno, Function.update_idem,
    next, objs, lives]
  simp [movedOn]

/-- The attempt takes the slot under the cursor and gives it up again. -/
theorem cotcpConnect_unresolved {w : World} (room : w.cursor .tcp < cotcpSize)
    (free : w.objs ⟨.tcp, w.cursor .tcp⟩ = blank) :
    cotcpConnect .null none none (loaded [.failed enoent] w) = .ret false (movedOn w 1) := by
  have here : w.cursor .tcp % cotcpSize = w.cursor .tcp := Nat.mod_eq_of_lt room
  have next : (w.cursor .tcp + 1) % 2 ^ 32 = w.cursor .tcp + 1 := by
    apply Nat.mod_eq_of_lt
    simp only [cotcpSize] at room
    omega
  generalize slot : (⟨.tcp, w.cursor .tcp⟩ : Ref) = r at free
  have taken : cotcpAlloc (loaded [.failed enoent] w) =
      .ret (some r) (takeSlot (bumpCursor (loaded [.failed enoent] w) .tcp) r) := by
    have found : allocScan .tcp cotcpSize (8191 + 1) (loaded [.failed enoent] w) =
        (some r, takeSlot (bumpCursor (loaded [.failed enoent] w) .tcp) r) := by
      rw [allocScan]
      simp only [here, slot, free]
      rfl
    exact congrArg (fun p : Option Ref × World => Res.ret p.1 p.2) found
  have failed : getaddrinfo (takeSlot (bumpCursor (loaded [.failed enoent] w) .tcp) r) =
      .ret none (answered (takeSlot (bumpCursor w .tcp) r) enoent []) := rfl
  have live : ((answered (takeSlot (bumpCursor w .tcp) r) enoent []).objs r).state = Cotcp.new := by
    simp only [answered, takeSlot, setObj_self]
  unfold cotcpConnect
  rw [bind_apply, taken, ← movedOn_one slot.symm next free]
  simp only [ret_bind, bind_apply, failed, cotcpFree, freeObject, look_apply]
  rw [live]
  rfl

theorem unresolved_step {w : World} (idle : w.batch = [] ∧ w.tasks = [])
    (room : w.cursor .tcp < cotcpSize) (free : w.objs ⟨.tcp, w.cursor .tcp⟩ = blank) :
    step coiosSystem ⟨w, []⟩ unresolved = .ok ⟨movedOn w 1, []⟩ := by
  have enabled : (Action.call (.cotcpConnect .null none none)).enabled [] w = true := by
    simp [Action.enabled, Call.wellTyped, idle.1, idle.2]
  have ran : Action.program (.call (.cotcpConnect .null none none)) (loaded [.failed enoent] w) =
      .ret () (movedOn w 1) := by
    have connect := cotcpConnect_unresolved room free
    show ((cotcpConnect .null none none (loaded [.failed enoent] w)).bind
      fun _ w' => .ret () w') = .ret () (movedOn w 1)
    rw [connect]
    rfl
  exact (if_pos enabled).trans (congrArg (enter []) ran)

theorem movedOn_zero (w : World) : movedOn w 0 = w := by
  have lives : (movedOn w 0).lives = w.lives := by
    funext r
    simp only [movedOn]
    rw [if_neg (by omega)]
  calc movedOn w 0 = { movedOn w 0 with lives := w.lives } := by rw [← lives]
    _ = w := by simp [movedOn]

theorem movedOn_movedOn (w : World) (n : Nat) : movedOn (movedOn w 1) n = movedOn w (n + 1) := by
  have lives : (movedOn (movedOn w 1) n).lives = (movedOn w (n + 1)).lives := by
    funext r
    simp only [movedOn, Function.update_self]
    by_cases kind : r.kind = .tcp
    · simp only [kind, true_and]
      split <;> split <;> split <;> omega
    · simp only [kind, false_and, if_false]
  have cursor : (movedOn (movedOn w 1) n).cursor = (movedOn w (n + 1)).cursor := by
    simp only [movedOn, Function.update_self, Function.update_idem]
    congr 1
    omega
  calc movedOn (movedOn w 1) n
      = { movedOn (movedOn w 1) n with
          cursor := (movedOn w (n + 1)).cursor, lives := (movedOn w (n + 1)).lives } := by
        rw [← lives, ← cursor]
    _ = movedOn w (n + 1) := by simp [movedOn]

theorem movedOn_run (n : Nat) {w : World} (idle : w.batch = [] ∧ w.tasks = [])
    (room : w.cursor .tcp + n ≤ cotcpSize)
    (free : ∀ i, w.cursor .tcp ≤ i → i < w.cursor .tcp + n → w.objs ⟨.tcp, i⟩ = blank) :
    Runs.run (step coiosSystem) ⟨w, []⟩ (List.replicate n unresolved) =
      .ok ⟨movedOn w n, []⟩ := by
  induction n generalizing w with
  | zero => rw [movedOn_zero, List.replicate_zero, Runs.run]
  | succ n ih =>
      have cursor : (movedOn w 1).cursor .tcp = w.cursor .tcp + 1 := by simp [movedOn]
      have taken := unresolved_step idle (by omega) (free _ (Nat.le_refl _) (by omega))
      have later := @ih (movedOn w 1) idle (by omega) fun i low high =>
        free i (by omega) (by omega)
      rw [List.replicate_succ, Runs.run, taken, ← movedOn_movedOn w n]
      exact later

/-- Slots outside the list were never used. -/
theorem unused_slots (used : List Ref) :
    Kept (fun _ w => Sound w ∧ ∀ r, r ∉ used → w.objs r = blank)
      fun _ o => ∀ r ∈ o.slot, r ∈ used where
  sound h := h.1
  load _ h := ⟨h.1.sameObjs rfl rfl rfl, h.2⟩
  change underway _ h change := by
    refine ⟨change.sound h.1, fun s hs => ?_⟩
    rcases change.objs with same | ⟨r, obj, same, about⟩
    · rw [same]
      exact h.2 s hs
    · rw [same]
      by_cases here : s = r
      · subst here
        rw [Function.update_self]
        rcases about with live | rfl | next
        · exact absurd (by rw [h.2 s hs]; rfl) live
        · rfl
        · exact absurd (underway.admitted s next) hs
      · rw [Function.update_of_ne here]
        exact h.2 s hs
  enter _ _ h now _ := ⟨h.1.note (Nat.le_of_eq now), h.2⟩
  resume h resumed := by
    have sound := resumed.sound h.1
    exact ⟨sound, fun s hs => sound.dead s (resumed.free (by rw [h.2 s hs]; rfl))⟩

/-! ## The defect and the condition -/

/-- Two connections, descriptors 3 and 4, take the first two slots. -/
def twoConnections : List Step :=
  [.start (.call (.cotcpConnect .null none none)) [.addresses [[1]], .descriptor 3, .done],
    .start (.call (.cotcpConnect .null none none)) [.addresses [[1]], .descriptor 4, .done]]

/-- The first connection is read through a callback. -/
def observed : Step := .start (.call (.cotcpOnRecv ⟨.tcp, 0⟩ (some 1))) []

/-- Both connections become readable. -/
def bothReadable : List Ready := [⟨3, true, false, false⟩, ⟨4, true, false, false⟩]

/-- The callback closes the second connection and opens a third. -/
def replaced : List Step :=
  [.start .dispatch [], .start .handle [.bytes [7]],
    .start (.call (.cotcpClose ⟨.tcp, 1⟩ true)) [],
    .start (.call (.cotcpConnect .null none none)) [.addresses [[1]], .descriptor 4, .done],
    .back [], .start .dispatch []]

/-- With the cursor back at the first slot, the third connection takes the slot of the
second, and the event collected for the second is read from the third. -/
theorem stale_event_reads_replacement : ∃ s₁ s s',
    Runs.run (step coiosSystem) (start true)
      (twoConnections ++ List.replicate 8190 unresolved ++ [observed] ++
        [.start (.wait bothReadable) []]) = .ok s₁ ∧
    Runs.run (step coiosSystem) s₁ replaced = .ok s ∧ (∀ m ∈ replaced, waits m = false) ∧
    ¬ OnTarget s₁.world s.world ∧
    s₁.world.lives ⟨.tcp, 1⟩ = 1 ∧
    step coiosSystem s (.start .handle [.bytes [9]]) = .ok s' ∧
    .read ⟨.tcp, 1⟩ 2 512 ∈ s'.world.log := by
  have seen : (do
      let s₀ ← Runs.run (step coiosSystem) (start true) twoConnections
      let s₁ ← Runs.run (step coiosSystem) ⟨movedOn s₀.world 8190, []⟩
        ([observed] ++ [.start (.wait bothReadable) []])
      let s ← Runs.run (step coiosSystem) s₁ replaced
      let s' ← step coiosSystem s (.start .handle [.bytes [9]])
      .ok ([s₀.stack.length, s₀.world.cursor .tcp, s₀.world.batch.length, s₀.world.tasks.length],
        [s₁.world.lives ⟨.tcp, 1⟩, s.world.lives ⟨.tcp, 1⟩], pending s.world ⟨.tcp, 1⟩,
        s'.world.log.head?) : Except Fault (List Nat × List Nat × Bool × Option Event)) =
      .ok ([0, 2, 0, 0], [1, 2], true, some (.read ⟨.tcp, 1⟩ 2 512)) := by decide +kernel
  obtain ⟨s₀, opened, seen⟩ := bind_ok seen
  obtain ⟨s₁, collected, seen⟩ := bind_ok seen
  obtain ⟨s, reached, seen⟩ := bind_ok seen
  obtain ⟨s', read, seen⟩ := bind_ok seen
  simp only [Except.ok.injEq, Prod.mk.injEq, List.cons.injEq, List.length_eq_zero_iff,
    and_true] at seen
  obtain ⟨⟨stack, cursor, batch, tasks⟩, ⟨before, after⟩, named, logged⟩ := seen
  have unused := ((unused_slots [⟨.tcp, 0⟩, ⟨.tcp, 1⟩]).fromStart
    ⟨Sound.initially true, fun _ _ => rfl⟩ (by decide +kernel) opened).1.2
  have moved : Runs.run (step coiosSystem) s₀ (List.replicate 8190 unresolved) =
      .ok ⟨movedOn s₀.world 8190, []⟩ := by
    obtain ⟨w, _⟩ := s₀
    subst stack
    apply movedOn_run 8190 ⟨batch, tasks⟩
    · rw [cursor]
      decide
    · intro i low _
      rw [cursor] at low
      refine unused _ ?_
      simp
      omega
  refine ⟨s₁, s, s', ?_, reached, by decide, ?_, before, read, ?_⟩
  · rw [List.append_assoc, List.append_assoc, Runs.run_append opened, Runs.run_append moved]
    exact collected
  · intro target
    have same := target.pending ⟨.tcp, 1⟩ named
    rw [before, after] at same
    cases same
  · exact List.mem_of_mem_head? logged

/-- In every run in which no move takes a slot that a pending event, a pending handler or
the trailing close of a running callback names, from the collection of a batch to the
next: the events and handlers still pending name slots that hold what they held when the
batch was collected, and every object ever torn down was the one meant. -/
theorem events_reach_their_connection (zeroBlock : Bool) (before during : List Step)
    (events : List Ready) (answers : List Answer) (s₁ s : Coloop)
    (admitted : Runs.Along (step coiosSystem) (fun s m => sparing s.tags s.world m = true)
      (start zeroBlock) (before ++ [.start (.wait events) answers] ++ during))
    (collected : Runs.run (step coiosSystem) (start zeroBlock)
      (before ++ [.start (.wait events) answers]) = .ok s₁)
    (sameBatch : ∀ m ∈ during, waits m = false)
    (reached : Runs.run (step coiosSystem) s₁ during = .ok s) :
    OnTarget s₁.world s.world := by
  obtain ⟨first, second⟩ := admitted.split collected
  have earlier : Runs.Along (step coiosSystem) (fun s m => Admits
      (fun tags o => sparing tags o.world (.start o.action []) = true) s.tags s.world m)
      (start zeroBlock) (before ++ [.start (.wait events) answers]) := by
    refine first.mono fun s m spares => ?_
    cases m with
    | start a answers => exact (sparing_loaded s.tags s.world a answers).trans spares
    | back answers => trivial
  have later : Runs.Along (step coiosSystem) (fun s m => Admits (fun tags o =>
      sparing tags o.world (.start o.action []) = true ∧ waits (.start o.action []) = false)
      s.tags s.world m) s₁ during := by
    have both := second.and (Runs.along_of_forall (step coiosSystem) sameBatch s₁)
    refine both.mono fun s m spares => ?_
    cases m with
    | start a answers =>
        refine ⟨(sparing_loaded s.tags s.world a answers).trans spares.1, ?_⟩
        cases a <;> exact spares.2
    | back answers => trivial
  obtain ⟨upright, waiting⟩ := Upright.kept.fromStart (Upright.initially zeroBlock) earlier collected
  have stamped := ((Stamped.kept s₁.world.lives).run waiting ⟨upright, fun _ _ => rfl⟩ later
    reached).1
  exact ⟨stamped.stamped, stamped.closed⟩

/-- Without the round trip of the cursor the new connection takes the third slot, and the
event of the closed one is ignored. -/
theorem events_reach_their_connection_replaced : ∃ s₁ s,
    Runs.run (step coiosSystem) (start true)
      (twoConnections ++ [observed] ++ [.start (.wait bothReadable) []]) = .ok s₁ ∧
    Runs.run (step coiosSystem) s₁ replaced = .ok s ∧ OnTarget s₁.world s.world ∧
    s.world.tasks = [] ∧ (s.world.objs ⟨.tcp, 2⟩).state = Cotcp.connected := by
  have seen : (do
      let s₁ ← Runs.run (step coiosSystem) (start true)
        (twoConnections ++ [observed] ++ [.start (.wait bothReadable) []])
      let s ← Runs.run (step coiosSystem) s₁ replaced
      .ok (s.world.tasks, (s.world.objs ⟨.tcp, 2⟩).state) :
        Except Fault (List (Handler × Ref) × Nat)) = .ok ([], Cotcp.connected) := by
    decide +kernel
  obtain ⟨s₁, collected, seen⟩ := bind_ok seen
  obtain ⟨s, reached, seen⟩ := bind_ok seen
  simp only [Except.ok.injEq, Prod.mk.injEq] at seen
  refine ⟨s₁, s, collected, reached, ?_, seen⟩
  exact events_reach_their_connection true (twoConnections ++ [observed]) replaced bothReadable []
    s₁ s (by decide +kernel) collected (by decide) reached

end Colinlib.Guarantees.StaleEvents
