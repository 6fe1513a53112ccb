import Colinlib.Guarantees.ContextSwitch

/-!
# Control transfers are calls that return

`cort_resume` and `cort_yield` give the processor away in the middle of a function. The code
that called them finds its registers, its stack and its control words as it left them when it
gets the processor back, whatever ran in between: to the caller, `coctx_swap` is a function
that returned.
-/
namespace Colinlib.Guarantees.CallsReturn
open Colinlib.Theory Colinlib.Theory.CMemory Colinlib.Theory.ByteMemory Colinlib.Theory.Amd64
open Colinlib.Source.CoCtx Colinlib.Source.Routine Colinlib.Source.RoutineSwap
open Colinlib.Guarantees.ContextSwitch
open Colinlib.Guarantees.SchedulerDiscipline (openState_inv openState_cort)

variable {image : Image} {cpu : Cpu} {main place : Place} {p p' q : Process} {before later : List Move}
  {e : Nat} {l : Option Cpu}

theorem start_inv (loaded : Loaded cpu main) : Inv image (start cpu main) := by
  have only {id : Nat} {pl : Place} (at_id : (start cpu main).place id = some pl) :
      id = mainCoId ∧ pl = main := by
    simp only [start] at at_id
    split at at_id
    · next same => exact ⟨same, (Option.some.inj at_id).symm⟩
    · cases at_id
  have alone {id : Nat} {c : Cort} (away : id ≠ mainCoId) (held : openState.sch.cort id = some c) :
      False := by
    rw [openState_cort away] at held
    cases held
  constructor
  · exact ⟨[], openState_inv⟩
  · constructor
    · intro id pl at_id
      obtain ⟨-, rfl⟩ := only at_id
      exact loaded.placed
    · intro id id' pl pl' at_id at_id'
      obtain ⟨-, rfl⟩ := only at_id
      obtain ⟨-, rfl⟩ := only at_id'
      exact loaded.apart
    · intro id id' pl pl' other at_id at_id'
      exact absurd ((only at_id).1.trans (only at_id').1.symm) other
  · intro id pl away at_id
    exact absurd (only at_id).1 away
  · intro id c held
    by_cases here : id = mainCoId
    · exact ⟨main, if_pos here⟩
    · exact (alone here held).elim
  · intro id vacant
    refine if_neg ?_
    rintro rfl
    cases vacant
  · exact fun id c away held _ _ => (alone away held).elim
  · exact fun id c away held _ _ => (alone away held).elim

theorem inv_run (h : Inv image p)
    (admitted : Runs.Along (Source.RoutineSwap.step image) (Admits image) p later)
    (reached : Runs.run (Source.RoutineSwap.step image) p later = .ok q) : Inv image q :=
  Runs.invariant_along (fun _ _ _ inv ok taken => (inv.step ok taken).inv) later p q h admitted reached

theorem run_agrees (h : Inv image p)
    (admitted : Runs.Along (Source.RoutineSwap.step image) (Admits image) p later) :
    (Runs.run (Source.RoutineSwap.step image) p later).map Process.machine =
      Runs.run Source.Routine.step p.machine (later.filterMap Move.op) := by
  induction later generalizing p with
  | nil => rfl
  | cons move rest ih =>
      have agrees := h.agrees admitted.1
      cases taken : Source.RoutineSwap.step image p move with
      | ok p' =>
          have after := ih (h.step admitted.1 taken).inv (admitted.2 p' taken)
          rw [taken] at agrees
          cases sched : move.op with
          | none =>
              rw [sched] at agrees
              have same : p'.machine = p.machine := Except.ok.inj agrees
              rw [List.filterMap_cons_none sched, ← same]
              simpa only [Runs.run, taken] using after
          | some op =>
              rw [sched] at agrees
              have ran : Source.Routine.step p.machine op = .ok p'.machine := agrees.symm
              rw [List.filterMap_cons_some sched]
              simpa only [Runs.run, taken, ran] using after
      | error e =>
          rw [taken] at agrees
          cases sched : move.op with
          | none =>
              rw [sched] at agrees
              cases agrees
          | some op =>
              rw [sched] at agrees
              have ran : Source.Routine.step p.machine op = .error e := agrees.symm
              rw [List.filterMap_cons_some sched]
              simp only [Runs.run, taken, ran]
              rfl

/-- A coroutine that waits, or that has just got the processor back. -/
structure Away (image : Image) (e : Nat) (l : Option Cpu) (place : Place) (q : Process) : Prop where
  inv : Inv image q
  at_place : q.place e = some place
  gone : q.machine.exec ≠ e → q.left e = l ∧ live (q.machine.sch.cort e) = true
  back : q.machine.exec = e →
    (∃ s, l = some s ∧ Returned s q.cpu) ∨ l = none ∧ Entered image place q.cpu

theorem Away.step {move : Move} (h : Away image e l place p) (gone : p.machine.exec ≠ e)
    (admitted : Admits image p move) (taken : step image p move = .ok p') :
    Away image e l place p' := by
  obtain ⟨left, alive⟩ := h.gone gone
  have stepped := h.inv.step admitted taken
  refine ⟨stepped.inv, stepped.places e place h.at_place, fun still => ?_, fun back => ?_⟩
  · obtain ⟨same, alive⟩ := stepped.aside e (Ne.symm gone) (Ne.symm still) alive
    exact ⟨same.trans left, alive⟩
  · subst back
    obtain ⟨pl, at_pl, arrives⟩ := stepped.arrives (Ne.symm gone)
    obtain rfl : place = pl := Option.some.inj (h.at_place.symm.trans at_pl)
    rwa [Arrives, left] at arrives

theorem Away.run (h : Away image e l place p)
    (away : Runs.Along (Source.RoutineSwap.step image)
      (fun q move => Admits image q move ∧ q.machine.exec ≠ e) p later)
    (reached : Runs.run (Source.RoutineSwap.step image) p later = .ok q) : Away image e l place q :=
  Runs.invariant_along (fun _ _ _ inv ok taken => inv.step ok.2 ok.1 taken) later p q h away reached

/-- Meanwhile a byte above its stack pointer stays what it is, unless running code changes it. -/
theorem Away.run_byte {s : Cpu} {x : Nat} (h : Away image e (some s) place p)
    (low : place.stack ≤ x) (high : x < place.stack + place.size)
    (above : (s.reg .rsp).toNat + 8 ≤ x)
    (away : Runs.Along (Source.RoutineSwap.step image)
      (fun q move => Admits image q move ∧ q.machine.exec ≠ e) p later)
    (unwritten : Runs.Along (Source.RoutineSwap.step image) (fun q move => ¬ move.Writes q x) p later)
    (reached : Runs.run (Source.RoutineSwap.step image) p later = .ok q) : q.bytes x = p.bytes x := by
  have each (r : Process) (move : Move) (r' : Process)
      (inv : Away image e (some s) place r ∧ r.bytes x = p.bytes x)
      (ok : (Admits image r move ∧ r.machine.exec ≠ e) ∧ ¬ move.Writes r x)
      (taken : Source.RoutineSwap.step image r move = .ok r') :
      Away image e (some s) place r' ∧ r'.bytes x = p.bytes x := by
    obtain ⟨waiting, same⟩ := inv
    obtain ⟨⟨admitted, gone⟩, unwritten⟩ := ok
    refine ⟨waiting.step gone admitted taken, .trans ?_ same⟩
    exact (waiting.inv.step admitted taken).spares e place x (Ne.symm gone) waiting.at_place low high
      (fun _ => ⟨s, (waiting.gone gone).1, above⟩) unwritten
  exact (Runs.invariant_along each later p q ⟨h, rfl⟩ (away.and unwritten) reached).2

/-- **The switch never goes wrong.** Whatever the coroutines do on their own stacks, a run on
the processor ends as the scheduler's run does: no call of `coctx_make` or `coctx_swap` reads
or writes memory it should not. -/
theorem runs_as_scheduled (loaded : Loaded cpu main)
    (admitted : Runs.Along (step image) (Admits image) (start cpu main) later) :
    (Runs.run (step image) (start cpu main) later).map Process.machine =
      Runs.run Source.Routine.step openState (later.filterMap Move.op) :=
  run_agrees (start_inv loaded) admitted

/-! A main program whose stack is a page, and one coroutine. -/

def sampleImage : Image := ⟨0x5000, 0x400000, 0⟩
def sampleMain : Place := ⟨0x1000, 0x10000, 0x1000⟩
def samplePlace : Place := ⟨0x20000, 0x30000, 128 * 1024⟩

def sampleCpu : Cpu where
  reg r := if r = .rsp then 0x10f00 else 7
  rip := 0x400100
  fpucw := 0x37f
  mxcsr := 0x1f80
  mem := ⟨fun _ => 0, [(0x1000, coctxSize), (0x10000, 0x1000)]⟩

def sampleStart : Process := start sampleCpu sampleMain

theorem sample_loaded : Loaded sampleCpu sampleMain :=
  ⟨⟨⟨by decide, by decide, List.mem_cons_self⟩, by decide, by decide,
    List.mem_cons_of_mem _ List.mem_cons_self⟩, .inl (by decide)⟩

theorem sample_new : Admits sampleImage sampleStart (.new 7 0 samplePlace) :=
  fun _ _ _ _ => ⟨by decide, by decide, by decide, by decide⟩

/-- Who is on the processor, and where on its stack. -/
def view (p : Process) : Nat × Option Place × Word :=
  (p.machine.exec, p.place p.machine.exec, p.cpu.reg .rsp)

theorem onStack_of_view {p : Process} {e : Nat} {own : Place} {rsp : Word}
    (seen : view p = (e, some own, rsp)) (inside : own.stack + 8 ≤ rsp.toNat ∧
      rsp.toNat ≤ own.stack + own.size) : OnStack p := by
  intro place mine
  simp only [view, Prod.mk.injEq] at seen
  obtain ⟨-, own_place, rfl⟩ := seen
  obtain rfl : own = place := Option.some.inj (own_place.symm.trans mine)
  exact inside

theorem sample_created : (step sampleImage sampleStart (.new 7 0 samplePlace)).map view =
    .ok (0, some sampleMain, 0x10f00) := by decide +kernel

theorem sample_resumed : (Runs.run (step sampleImage) sampleStart
    [.new 7 0 samplePlace, .resume 1 0x401234]).map view =
      .ok (1, some samplePlace, 0x4fff8) := by decide +kernel

theorem sample_returned : (Runs.run (step sampleImage) sampleStart
    [.new 7 0 samplePlace, .resume 1 0x401234, .yield 0x402345]).map view =
      .ok (0, some sampleMain, 0x10f00) := by decide +kernel

theorem sample_admitted : Runs.Along (step sampleImage) (Admits sampleImage) sampleStart
    [.new 7 0 samplePlace, .resume 1 0x401234, .yield 0x402345] := by
  refine ⟨sample_new, fun p created => ⟨?_, fun p' resumed => ⟨?_, fun _ _ => trivial⟩⟩⟩
  · have seen := sample_created
    rw [created] at seen
    exact onStack_of_view (Except.ok.inj seen) (by decide)
  · have seen := sample_resumed
    simp only [Runs.run, created, resumed] at seen
    exact onStack_of_view (Except.ok.inj seen) (by decide)

theorem runs_as_scheduled_sample : (Runs.run (step sampleImage) sampleStart
    [.new 7 0 samplePlace, .resume 1 0x401234, .yield 0x402345]).map Process.machine =
      Runs.run Source.Routine.step openState [.new 7 0, .resume 1, .yield] :=
  runs_as_scheduled sample_loaded sample_admitted

/-- The processor is the coroutine's own again: it is behind its call, and the registers and
control words that a call keeps are as they were. -/
structure Regained (p : Process) (ret : Word) (q : Process) : Prop where
  rip : q.cpu.rip = ret
  rsp : q.cpu.reg .rsp = p.cpu.reg .rsp
  kept : ∀ r ∈ [Reg.rbx, .rbp, .r12, .r13, .r14, .r15], q.cpu.reg r = p.cpu.reg r
  control : q.cpu.fpucw = p.cpu.fpucw ∧ q.cpu.mxcsr = p.cpu.mxcsr

/-- The return address is on top of the stack. -/
theorem regained_of_returned {called : Cpu} {ret : Word} (is_called : Called p ret called)
    (room : 8 ≤ (p.cpu.reg .rsp).toNat) (h : Returned called q.cpu) :
    Regained p ret q := by
  have top := is_called.rsp_toNat room
  have saved : ∀ r ∈ [Reg.rbx, .rbp, .r12, .r13, .r14, .r15],
      (∃ a, (r, a) ∈ places) ∧ r ≠ .rdi ∧ r ≠ .rsi ∧ r ≠ .rsp := by
    simp [places]
  constructor
  · rw [h.rip, is_called.bytes, ← top, Nat.add_sub_cancel]
    exact wordOf_eq (wordAt_put _ (word_fits ret))
  · rw [h.rsp, is_called.rsp, BitVec.sub_add_cancel]
  · intro r among
    obtain ⟨⟨a, place⟩, not_rdi, not_rsi, not_rsp⟩ := saved r among
    exact (h.kept (r, a) place).trans (is_called.kept r not_rdi not_rsi not_rsp)
  · exact ⟨h.control.1.trans is_called.control.1, h.control.2.trans is_called.control.2⟩

/-- **Control transfers are calls that return.** A coroutine calls `cort_resume` or
`cort_yield` and the processor is given away. Whatever runs then, when the coroutine gets the
processor back it goes on behind the call, with its stack pointer, its registers and its control
words, and its stack has the bytes it had, where no other code has written. -/
theorem calls_return {call : Move} {ret : Word} (loaded : Loaded cpu main)
    (admitted : Runs.Along (step image) (Admits image) (start cpu main) before)
    (reached : Runs.run (step image) (start cpu main) before = .ok p)
    (calls : (∃ id, call = .resume id ret) ∨ call = .yield ret) (on : OnStack p)
    (taken : step image p call = .ok p') (given : p'.machine.exec ≠ p.machine.exec)
    (away : Runs.Along (step image)
      (fun q move => Admits image q move ∧ q.machine.exec ≠ p.machine.exec) p' later)
    (goes_on : Runs.run (step image) p' later = .ok q)
    (back : q.machine.exec = p.machine.exec) :
    Regained p ret q ∧ ∀ own x, p.place p.machine.exec = some own →
      (p.cpu.reg .rsp).toNat ≤ x → x < own.stack + own.size →
      Runs.Along (step image) (fun q move => ¬ move.Writes q x) p' later → q.bytes x = p.bytes x := by
  have inv := inv_run (start_inv loaded) admitted reached
  obtain ⟨own, mine⟩ := inv.mine
  obtain ⟨low, high⟩ := on own mine
  obtain ⟨stepped, alive, ⟨called, is_called, left⟩, stack⟩ :
      Stepped image p (fun _ => False) p' ∧ Leaves p ret p' := by
    obtain ⟨below, discipline⟩ := inv.sched
    rcases calls with ⟨id, rfl⟩ | rfl
    · obtain ⟨⟨b, m⟩, ran, -⟩ := bind_ok taken
      obtain ⟨p'', taken', -, stepped, leaves⟩ := inv.resume on ran ret
      obtain rfl := Except.ok.inj (taken'.symm.trans taken)
      exact ⟨stepped, leaves given⟩
    · obtain ⟨⟨b, m⟩, ran, -⟩ := bind_ok taken
      obtain ⟨p'', taken', -, stepped, leaves⟩ := inv.yield on ran ret
      obtain rfl := Except.ok.inj (taken'.symm.trans taken)
      exact ⟨stepped, leaves given⟩
  have waiting : Away image p.machine.exec (some called) own p' :=
    ⟨stepped.inv, stepped.places _ _ mine, fun _ => ⟨left, alive⟩, fun still => absurd still given⟩
  refine ⟨?_, fun own' x mine' from_rsp to_top unwritten => ?_⟩
  · obtain ⟨s, same, returned⟩ | ⟨none, -⟩ := (waiting.run away goes_on).back back
    · obtain rfl := Option.some.inj same
      exact regained_of_returned is_called (by omega) returned
    · cases none
  · obtain rfl : own = own' := Option.some.inj (mine.symm.trans mine')
    have top := is_called.rsp_toNat (by omega)
    exact (waiting.run_byte (by omega) to_top (by omega) away unwritten goes_on).trans
      (stack own mine x from_rsp to_top)

theorem calls_return_sample : ∃ p p' q,
    Runs.run (step sampleImage) sampleStart [.new 7 0 samplePlace] = .ok p ∧
    step sampleImage p (.resume 1 0x401234) = .ok p' ∧
    Runs.run (step sampleImage) p' [.yield 0x402345] = .ok q ∧ Regained p 0x401234 q ∧
    q.bytes 0x10f00 = p.bytes 0x10f00 := by
  obtain ⟨q, whole, seen_q⟩ := Runs.reached_of_map sample_returned
  obtain ⟨p, created, after⟩ := Runs.run_cons whole
  obtain ⟨p', resumed, goes_on⟩ := Runs.run_cons after
  have seen_p := sample_created
  rw [created] at seen_p
  have seen_p' := sample_resumed
  simp only [Runs.run, created, resumed] at seen_p'
  have main : p.machine.exec = 0 := congrArg Prod.fst (Except.ok.inj seen_p)
  have other : p'.machine.exec = 1 := congrArg Prod.fst (Except.ok.inj seen_p')
  have back : q.machine.exec = 0 := congrArg Prod.fst seen_q
  have reached : Runs.run (step sampleImage) sampleStart [.new 7 0 samplePlace] = .ok p := by
    simp only [Runs.run, created]
  have on : OnStack p := onStack_of_view (Except.ok.inj seen_p) (by decide)
  have away : p'.machine.exec ≠ p.machine.exec := by rw [main, other]; decide
  have admitted : Runs.Along (step sampleImage) (Admits sampleImage) sampleStart
      [.new 7 0 samplePlace] := ⟨sample_new, fun _ _ => trivial⟩
  have meanwhile : Runs.Along (step sampleImage)
      (fun q move => Admits sampleImage q move ∧ q.machine.exec ≠ p.machine.exec) p'
      [.yield 0x402345] :=
    ⟨⟨onStack_of_view (Except.ok.inj seen_p') (by decide), away⟩, fun _ _ => trivial⟩
  obtain ⟨regained, stack⟩ := calls_return sample_loaded admitted reached (.inl ⟨1, rfl⟩) on resumed
    away meanwhile goes_on (back.trans main.symm)
  have own : p.place p.machine.exec = some sampleMain :=
    congrArg (fun seen => seen.2.1) (Except.ok.inj seen_p)
  have rsp : p.cpu.reg .rsp = 0x10f00 := congrArg (fun seen => seen.2.2) (Except.ok.inj seen_p)
  refine ⟨p, p', q, reached, resumed, goes_on, regained, stack sampleMain 0x10f00 own ?_ (by decide)
    ⟨fun wrote => wrote, fun _ _ => trivial⟩⟩
  rw [rsp]
  decide

/-- No context lies on the stack of the coroutine, and no other stack meets it. -/
def OwnStack (q : Process) (id : Nat) (place : Place) : Prop :=
  ∀ id' place', q.place id' = some place' →
    Apart place'.ctx coctxSize place.stack place.size ∧
      (id' ≠ id → Apart place'.stack place'.size place.stack place.size)

theorem ownStack_of_laid (h : Laid q) (here : q.place e = some place) : OwnStack q e place :=
  fun id' place' there =>
    ⟨h.crossed id' e place' place there here,
      fun other => (h.apart id' e place' place other there here).2⟩

/-- **A new coroutine starts in `cofunc`**, whatever runs between its creation and the first
time it gets the processor: with the scheduler as its argument, on an aligned stack that is
all its own, and with both control words zero, that is, with no floating-point exception
masked. -/
theorem first_entry {func ud : Nat} {fresh : Place} {sch : Cosched} (loaded : Loaded cpu main)
    (admitted : Runs.Along (step image) (Admits image) (start cpu main) before)
    (reached : Runs.run (step image) (start cpu main) before = .ok p)
    (made : cortNew p.machine.sch (some func) ud = .ok (some e, sch))
    (new : Admits image p (.new func ud fresh))
    (taken : step image p (.new func ud fresh) = .ok p')
    (away : Runs.Along (step image) (fun q move => Admits image q move ∧ q.machine.exec ≠ e) p' later)
    (goes_on : Runs.run (step image) p' later = .ok q) (gets : q.machine.exec = e) :
    ∃ place, q.place e = some place ∧ place.size = stackSize image.stsize ∧
      OwnStack q e place ∧ Entered image place q.cpu := by
  have inv := inv_run (start_inv loaded) admitted reached
  obtain ⟨cid, c, sch', made', -, status, entry, -, slots, not_running, -⟩ :=
    inv.takes func ud
  rw [made] at made'
  cases made'
  obtain ⟨p'', taken', stepped, sched⟩ := inv.new new
  obtain rfl := Except.ok.inj (taken'.symm.trans taken)
  have machine : p''.machine = { p.machine with sch } := by
    simp only [Source.Routine.step, made, ok_bind, Except.ok.injEq] at sched
    exact sched.symm
  have elsewhere : p''.machine.exec ≠ e := by
    rw [machine]
    exact Ne.symm not_running
  have held : p''.machine.sch.cort e = some c := by
    rw [machine]
    exact (slots e).trans (if_pos rfl)
  have alive : c.status ≠ .dead := by simp [status]
  obtain ⟨place, at_e, size, unsaved, -⟩ :=
    stepped.inv.fresh e c (Ne.symm elsewhere) held alive entry
  have waiting : Away image e none place p'' :=
    ⟨stepped.inv, at_e, fun _ => ⟨unsaved, by rw [held, live, status]; rfl⟩,
      fun here => absurd here elsewhere⟩
  have arrived := waiting.run away goes_on
  obtain ⟨s, none, -⟩ | ⟨-, entered⟩ := arrived.back gets
  · cases none
  · exact ⟨place, arrived.at_place, size, ownStack_of_laid arrived.inv.laid arrived.at_place, entered⟩

theorem first_entry_sample : ∃ q place,
    Runs.run (step sampleImage) sampleStart [.new 7 0 samplePlace, .resume 1 0x401234] = .ok q ∧
    q.place 1 = some place ∧ place.size = stackSize sampleImage.stsize ∧
    OwnStack q 1 place ∧ Entered sampleImage place q.cpu := by
  obtain ⟨q, whole, seen_q⟩ := Runs.reached_of_map sample_resumed
  obtain ⟨p, created, goes_on⟩ := Runs.run_cons whole
  have seen_p := sample_created
  rw [created] at seen_p
  have main : p.machine.exec = 0 := congrArg Prod.fst (Except.ok.inj seen_p)
  have gets : q.machine.exec = 1 := congrArg Prod.fst seen_q
  have first : (cortNew openState.sch (some 7) 0).map Prod.fst = .ok (some 1) := by decide +kernel
  obtain ⟨⟨_, sch⟩, made, rfl⟩ := Runs.reached_of_map first
  have nothing : Runs.Along (step sampleImage) (Admits sampleImage) sampleStart [] := trivial
  have meanwhile : Runs.Along (step sampleImage)
      (fun q move => Admits sampleImage q move ∧ q.machine.exec ≠ 1) p [.resume 1 0x401234] :=
    ⟨⟨onStack_of_view (Except.ok.inj seen_p) (by decide), by rw [main]; decide⟩,
      fun _ _ => trivial⟩
  obtain ⟨place, entered⟩ :=
    first_entry sample_loaded nothing rfl made sample_new created meanwhile goes_on gets
  exact ⟨q, place, whole, entered⟩

end Colinlib.Guarantees.CallsReturn
