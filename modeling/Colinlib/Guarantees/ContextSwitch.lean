import Colinlib.Guarantees.BlockedCalls
import Colinlib.Source.RoutineSwap

/-!
# Switching between stacks

What a call of `coctx_swap` by the scheduler does to the processor and to memory. The invariant
says where each coroutine's context and stack lie, and that the context of one that is not
running is the context of the call it waits in, or of a function that has not started. Every
step keeps it; none writes above the stack pointer of a coroutine that waits.
-/
namespace Colinlib.Guarantees.ContextSwitch
open Colinlib.Theory Colinlib.Theory.CMemory Colinlib.Theory.ByteMemory Colinlib.Theory.Amd64
open Colinlib.Source.CoCtx Colinlib.Source.Routine Colinlib.Source.RoutineSwap
open Colinlib.Guarantees.SchedulerDiscipline (openState_inv openState_cort resume_cases resume_inv
  yield_cases yield_inv ret_inv step_inv)
open Colinlib.Guarantees.CoroutineIdentity (Inv.takesVacant TakesVacant)

/-! ## The scheduler hands the processor over -/

/-- The processor goes from one coroutine to another, which has a context to continue in. Only
these two slots change; the one that leaves is dead or has saved its context. -/
structure Hands (m m' : Machine) : Prop where
  running : m.sch.running = m.exec
  running' : m'.sch.running = m'.exec
  away : m'.exec ≠ m.exec
  target : ∃ c, m.sch.cort m'.exec = some c ∧ c.status ≠ .dead ∧
    (c.ctx = .entry ∨ c.ctx = .saved m'.exec)
  leaves : ∃ c, m'.sch.cort m.exec = some c ∧ (c.status = .dead ∨ c.ctx = .saved m.exec)
  arrives : ∃ c, m'.sch.cort m'.exec = some c
  others : ∀ j, j ≠ m.exec → j ≠ m'.exec → m'.sch.cort j = m.sch.cort j

theorem resume_hands {m m' : Machine} {below : List Nat} {id : Nat}
    (h : SchedulerDiscipline.Inv m below) (ran : cortResume m id = .ok (true, m')) :
    Hands m m' ∧ m'.exec = id ∧ live (m'.sch.cort m.exec) = true := by
  obtain ⟨cur, here, runs⟩ := h.current
  by_cases inside : id < m.sch.cap
  · cases held : m.sch.cort id with
    | none => simp [cortResume, if_pos inside, held] at ran
    | some co =>
        by_cases waits : co.status = .suspend
        · obtain ⟨out, ctx⟩ := h.resumable held waits
          obtain ⟨S', resumed, running, -, -, -, slots⟩ :=
            cortResume_effects held waits ctx here runs
          rw [resumed] at ran
          cases ran
          have other : id ≠ m.sch.running := by
            rintro rfl
            exact out List.mem_cons_self
          refine ⟨⟨h.on_cpu.symm, running, h.on_cpu ▸ other, ⟨co, held, by simp [waits], ctx⟩,
            ⟨_, (slots _).trans (if_pos h.on_cpu), .inr rfl⟩,
            ⟨_, by rw [slots, if_neg other, if_pos rfl]⟩, fun j first second => ?_⟩, rfl, ?_⟩
          · rw [slots, if_neg (h.on_cpu ▸ first), if_neg second]
          · rw [slots, if_pos h.on_cpu]
            rfl
        · simp only [cortResume, if_pos inside, held, here, Except.ok.injEq,
            Prod.mk.injEq] at ran
          cases ran.1
  · simp [cortResume, inside] at ran

theorem yield_hands {m m' : Machine} {below : List Nat} (h : SchedulerDiscipline.Inv m below)
    (ran : cortYield m = .ok (true, m')) :
    Hands m m' ∧ live (m'.sch.cort m.exec) = true := by
  by_cases main : m.sch.running = mainCoId
  · simp only [cortYield, if_pos main, Except.ok.injEq, Prod.mk.injEq] at ran
    cases ran.1
  · obtain ⟨next, rest, rfl⟩ := h.below_of_not_main main
    obtain ⟨co, here, runs⟩ := h.current
    obtain ⟨-, ⟨c, held, rfl⟩, -⟩ := h.linked
    rw [here] at held
    cases held
    obtain ⟨pc, resumer, waits, saved⟩ := h.waiting _ List.mem_cons_self
    obtain ⟨S', yielded, running, -, -, -, slots⟩ :=
      cortYield_effects main here runs resumer waits saved
    rw [yielded] at ran
    cases ran
    have other : co.pco ≠ m.sch.running := by
      intro same
      exact (List.nodup_cons.mp h.distinct).1 (same ▸ List.mem_cons_self)
    refine ⟨⟨h.on_cpu.symm, running, h.on_cpu ▸ other, ⟨pc, resumer, by simp [waits], .inr saved⟩,
      ⟨_, (slots _).trans (if_pos h.on_cpu), .inr rfl⟩,
      ⟨_, by rw [slots, if_neg other, if_pos rfl]⟩, fun j first second => ?_⟩, ?_⟩
    · rw [slots, if_neg (h.on_cpu ▸ first), if_neg second]
    · rw [slots, if_pos h.on_cpu]
      rfl

theorem ret_hands {m m' : Machine} {below : List Nat} (h : SchedulerDiscipline.Inv m below)
    (not_main : m.exec ≠ mainCoId) (ran : cofuncReturn m m.exec = .ok m') :
    Hands m m' ∧ ∀ c, m'.sch.cort m.exec = some c → c.status = .dead := by
  obtain ⟨next, rest, rfl⟩ := h.below_of_not_main (h.on_cpu ▸ not_main)
  obtain ⟨co, here, runs⟩ := h.current
  obtain ⟨-, ⟨c, held, rfl⟩, -⟩ := h.linked
  rw [here] at held
  cases held
  obtain ⟨pc, resumer, waits, saved⟩ := h.waiting _ List.mem_cons_self
  obtain ⟨S', returned, running, -, -, -, slots⟩ :=
    cofuncReturn_effects (by rw [h.on_cpu]; exact here) runs resumer waits saved
  rw [returned] at ran
  cases ran
  have other : co.pco ≠ m.exec := by
    rw [h.on_cpu]
    intro same
    exact (List.nodup_cons.mp h.distinct).1 (same ▸ List.mem_cons_self)
  refine ⟨⟨h.on_cpu.symm, running, other, ⟨pc, resumer, by simp [waits], .inr saved⟩,
    ⟨_, by rw [slots, if_pos rfl], .inl rfl⟩, ⟨_, by rw [slots, if_neg other, if_pos rfl]⟩,
    fun j first second => ?_⟩, fun c held => ?_⟩
  · rw [slots, if_neg first, if_neg second]
  · rw [slots, if_pos rfl] at held
    cases held
    rfl

/-! ## Contexts and stacks -/

/-- The context of a coroutine that has not started. -/
def initial (image : Image) (place : Place) : Context :=
  started ((BitVec.ofNat 64 place.stack + BitVec.ofNat 64 place.size) &&& (-16 : Word)) image.cofunc
    (image.sched.setWidth 32) ((image.sched >>> 32).setWidth 32)

/-- The blocks of all coroutines are allocated and do not meet. -/
structure Laid (p : Process) : Prop where
  placed : ∀ id place, p.place id = some place → Placed p.cpu.mem place
  crossed : ∀ id id' place place', p.place id = some place → p.place id' = some place' →
    Apart place.ctx coctxSize place'.stack place'.size
  apart : ∀ id id' place place', id ≠ id' → p.place id = some place → p.place id' = some place' →
    Apart place.ctx coctxSize place'.ctx coctxSize ∧
      Apart place.stack place.size place'.stack place'.size

theorem Laid.congr {p p' : Process} (h : Laid p) (place : p'.place = p.place)
    (blocks : p'.cpu.mem.blocks = p.cpu.mem.blocks) : Laid p' where
  placed id pl at_id := by
    obtain ⟨⟨positive, fits, block⟩, positive', fits', block'⟩ := h.placed id pl (place ▸ at_id)
    exact ⟨⟨positive, fits, blocks ▸ block⟩, positive', fits', blocks ▸ block'⟩
  crossed id id' pl pl' at_id at_id' := h.crossed id id' pl pl' (place ▸ at_id) (place ▸ at_id')
  apart id id' pl pl' other at_id at_id' :=
    h.apart id id' pl pl' other (place ▸ at_id) (place ▸ at_id')

/-- A coroutine waits in the call it entered at `s`. -/
structure Waits (byte : Nat → UInt8) (place : Place) (s : Cpu) : Prop where
  context : Holds byte place.ctx (ofCaller s)
  top : place.stack ≤ (s.reg .rsp).toNat ∧ (s.reg .rsp).toNat + 8 ≤ place.stack + place.size

theorem Waits.congr {byte byte' : Nat → UInt8} {place : Place} {s : Cpu} (h : Waits byte place s)
    (context : ∀ x, place.ctx ≤ x → x < place.ctx + coctxSize → byte' x = byte x) :
    Waits byte' place s where
  context := h.context.congr fun x low high => context x low (by unfold coctxSize; omega)
  top := h.top

/-- Where the running code can be saved: in a block of its own, above its stack pointer. -/
structure Spot (p : Process) (octx : Nat) : Prop where
  positive : 0 < octx
  fits : octx + coctxSize ≤ 2 ^ 64
  owned : Owned p.cpu.mem octx coctxSize
  above : Apart octx coctxSize ((p.cpu.reg .rsp).toNat - 8) 8
  others : ∀ id place, id ≠ p.machine.exec → p.place id = some place →
    Apart octx coctxSize place.ctx coctxSize ∧ Apart octx coctxSize place.stack place.size

/-- The processor at the first instruction of `coctx_swap`. -/
structure Called (p : Process) (ret : Word) (s : Cpu) : Prop where
  rsp : s.reg .rsp = p.cpu.reg .rsp - 8
  blocks : s.mem.blocks = p.cpu.mem.blocks
  bytes : s.mem.byte = put p.bytes ((p.cpu.reg .rsp).toNat - 8) (encode 8 ret.toNat)
  kept : ∀ r, r ≠ .rdi → r ≠ .rsi → r ≠ .rsp → s.reg r = p.cpu.reg r
  control : s.fpucw = p.cpu.fpucw ∧ s.mxcsr = p.cpu.mxcsr

section Transfers
variable {image : Image} {p : Process} {m : Machine} {own place : Place} {octx id : Nat}
  {ret : Word} {c : Context}

/-- The call of `coctx_swap` pushes its return address on the stack of the caller. -/
theorem enterSwap_spec (laid : Laid p) (mine : p.place p.machine.exec = some own)
    (on : OnStack p) (octx ctx : Nat) (ret : Word) : ∃ called,
      Process.enterSwap p.cpu octx ctx ret = .ok called ∧
      called.reg .rdi = BitVec.ofNat 64 octx ∧ called.reg .rsi = BitVec.ofNat 64 ctx ∧
      Called p ret called := by
  obtain ⟨low, high⟩ := on own mine
  obtain ⟨positive, fits, block⟩ := (laid.placed _ _ mine).stack
  obtain ⟨s, is⟩ : ∃ s, s = (p.cpu.setReg .rdi (BitVec.ofNat 64 octx)).setReg .rsi
      (BitVec.ofNat 64 ctx) := ⟨_, rfl⟩
  have rsp : s.reg .rsp = p.cpu.reg .rsp := by
    rw [is, setReg_other _ _ (by decide), setReg_other _ _ (by decide)]
  have mem : s.mem = p.cpu.mem := by
    rw [is]
    rfl
  have room : Owned s.mem ((p.cpu.reg .rsp).toNat - 8) 8 := by
    rw [mem]
    exact ⟨_, block, by dsimp only; omega, by dsimp only; omega⟩
  refine ⟨(s.setReg .rsp (p.cpu.reg .rsp - 8)).withBytes
    (put s.mem.byte ((p.cpu.reg .rsp).toNat - 8) (encode 8 ret.toNat)), ?_, ?_, ?_, ?_, ?_, ?_, ?_, ?_⟩
  · rw [Process.enterSwap, ← is]
    exact push_spec rsp (by omega) room
  · rw [withBytes_reg, setReg_other _ _ (by decide), is, setReg_other _ _ (by decide), setReg_self]
  · rw [withBytes_reg, setReg_other _ _ (by decide), is, setReg_self]
  · rw [withBytes_reg, setReg_self]
  · rw [← mem]
    rfl
  · rw [withBytes_byte, mem]
    rfl
  · intro r not_rdi not_rsi not_rsp
    rw [withBytes_reg, setReg_other _ _ not_rsp, is, setReg_other _ _ not_rsi,
      setReg_other _ _ not_rdi]
  · rw [is]
    exact ⟨rfl, rfl⟩

theorem Called.rsp_toNat {called : Cpu} {ret : Word} (h : Called p ret called)
    (room : 8 ≤ (p.cpu.reg .rsp).toNat) :
    (called.reg .rsp).toNat + 8 = (p.cpu.reg .rsp).toNat := by
  rw [h.rsp]
  bv_omega

/-- What a call of `coctx_swap` does that leads into a coroutine whose context is `c`. -/
theorem transfer_spec (laid : Laid p) (mine : p.place p.machine.exec = some own)
    (on : OnStack p) (spot : Spot p octx) (other : id ≠ p.machine.exec)
    (target : p.place id = some place) (held : Holds p.bytes place.ctx c)
    (room : place.stack + 8 ≤ c.rsp.toNat ∧ c.rsp.toNat ≤ place.stack + place.size) (m : Machine)
    (ret : Word) : ∃ called byte, Called p ret called ∧
      p.transfer m octx place.ctx ret = .ok { p with
        machine := m
        cpu := c.enter called byte
        left := Function.update p.left p.machine.exec (some called) } ∧
      Holds byte octx (ofCaller called) ∧
      byte = put (putFields called.mem.byte octx (ofCaller called).fields) (c.rsp.toNat - 8)
        (encode 8 c.rip.toNat) := by
  obtain ⟨called, entered, rdi, rsi, is_called⟩ := enterSwap_spec laid mine on octx place.ctx ret
  have rsp := is_called.rsp
  have blocks := is_called.blocks
  have bytes := is_called.bytes
  obtain ⟨low, high⟩ := on own mine
  obtain ⟨positive, fits, block⟩ := (laid.placed _ _ mine).stack
  obtain ⟨positive', fits', block'⟩ := (laid.placed _ _ target).ctx
  obtain ⟨positive'', fits'', block''⟩ := (laid.placed _ _ target).stack
  obtain ⟨meets, clear⟩ := spot.others id place other target
  have crossed := laid.crossed id id place place target target
  have away := laid.crossed id p.machine.exec place own target mine
  have size : coctxSize = 144 := rfl
  have same {a n : Nat} (h : Owned p.cpu.mem a n) : Owned called.mem a n := by
    unfold Owned at h ⊢
    rwa [blocks]
  have out : Points called .rdi octx 120 := by
    refine ⟨?_, spot.positive, by have := spot.fits; omega, same (spot.owned.inner (Nat.le_refl _) ?_)⟩
    · rw [rdi, BitVec.toNat_ofNat, Nat.mod_eq_of_lt (by have := spot.fits; omega)]
    · omega
  have next : Points called .rsi place.ctx 120 := by
    refine ⟨?_, positive', by omega, same ⟨_, block', Nat.le_refl _, by dsimp only; omega⟩⟩
    rw [rsi, BitVec.toNat_ofNat, Nat.mod_eq_of_lt (by omega)]
  have stack : Points called .rsp ((p.cpu.reg .rsp).toNat - 8) 8 := by
    have bound := (p.cpu.reg .rsp).isLt
    refine ⟨?_, by omega, by omega, same ⟨_, block, by dsimp only; omega, by dsimp only; omega⟩⟩
    rw [rsp]
    bv_omega
  have held' : Holds called.mem.byte place.ctx c := by
    refine held.congr fun x from_ctx in_ctx => ?_
    rw [bytes]
    refine put_outside _ _ _ _ ?_
    rw [encode_length]
    unfold Apart at away
    omega
  have ran := run_coctxSwap out next (meets.inner (by omega) (by omega)) stack
    (spot.above.inner (by omega) (by omega)) held' (by omega)
    (same ⟨_, block'', by dsimp only; omega, by dsimp only; omega⟩)
    (crossed.symm.inner (by omega) (by omega))
  refine ⟨called, _, is_called, ?_, ?_, rfl⟩
  · simp only [Process.transfer, entered, ok_bind, ran]
  · refine (holds_fields _ _ _).congr fun x from_ctx in_ctx => put_outside _ _ _ _ ?_
    rw [encode_length]
    unfold Apart at clear
    omega

end Transfers

/-! ## What the caller sees -/

/-- The processor when the call of `coctx_swap` that was entered at `s` has returned. -/
structure Returned (s t : Cpu) : Prop where
  rip : t.rip = wordOf s.mem.byte (s.reg .rsp).toNat
  rsp : t.reg .rsp = s.reg .rsp + 8
  rax : t.reg .rax = 0
  kept : ∀ r ∈ places, t.reg r.1 = s.reg r.1
  control : t.fpucw = s.fpucw ∧ t.mxcsr = s.mxcsr

/-- The processor when `cofunc` starts: it has its argument and an aligned stack that is all
free. Both control words are zero. -/
structure Entered (image : Image) (place : Place) (t : Cpu) : Prop where
  rip : t.rip = image.cofunc
  argument : cofuncScheduler ((t.reg .rdi).setWidth 32) ((t.reg .rsi).setWidth 32) = image.sched
  aligned : ((t.reg .rsp).toNat + 8) % 16 = 0
  top : place.stack + place.size < (t.reg .rsp).toNat + 24 ∧
    (t.reg .rsp).toNat + 8 ≤ place.stack + place.size
  control : t.fpucw = 0 ∧ t.mxcsr = 0

theorem cofuncScheduler_halves (v : Word) :
    cofuncScheduler (v.setWidth 32) ((v >>> 32).setWidth 32) = v := by
  apply BitVec.eq_of_getLsbD_eq
  intro i below
  simp only [cofuncScheduler, BitVec.getLsbD_or, BitVec.getLsbD_setWidth, BitVec.getLsbD_shiftLeft,
    BitVec.getLsbD_ushiftRight]
  by_cases low : i < 32
  · simp [low, below]
  · simp [low, below, show i - 32 < 64 by omega, show i - 32 < 32 by omega,
      show 32 + (i - 32) = i by omega]

theorem setWidth_back (v : BitVec 32) : (v.setWidth 64).setWidth 32 = v := by
  rw [BitVec.setWidth_setWidth_of_le _ (by decide), BitVec.setWidth_eq]

/-- The top of a new stack. -/
theorem initial_rsp (image : Image) {place : Place} (large : 32 ≤ place.size)
    (fits : place.stack + place.size < 2 ^ 64) :
    (initial image place).rsp.toNat = (place.stack + place.size) / 16 * 16 - 8 := by
  have rsp : (initial image place).rsp =
    ((BitVec.ofNat 64 place.stack + BitVec.ofNat 64 place.size) &&& (-16 : Word)) - 8 := rfl
  have eight : (8 : Word).toNat = 8 := rfl
  rw [rsp, BitVec.toNat_sub, align_toNat, BitVec.toNat_add, BitVec.toNat_ofNat,
    BitVec.toNat_ofNat, eight]
  omega

theorem initial_enters (image : Image) {place : Place} (large : 32 ≤ place.size)
    (fits : place.stack + place.size < 2 ^ 64) (s : Cpu) (byte : Nat → UInt8) :
    Entered image place ((initial image place).enter s byte) := by
  have top := initial_rsp image large fits
  have first : (initial image place).reg .rdi = (image.sched.setWidth 32).setWidth 64 :=
    started_rdi _ _ _ _
  have second : (initial image place).reg .rsi = ((image.sched >>> 32).setWidth 32).setWidth 64 :=
    started_rsi _ _ _ _
  refine ⟨rfl, ?_, ?_, ?_, rfl, rfl⟩
  · rw [enter_placed _ _ _ (by decide), enter_placed _ _ _ (by decide), first, second, setWidth_back,
      setWidth_back, cofuncScheduler_halves]
  · rw [enter_rsp, top]
    omega
  · rw [enter_rsp, top]
    omega

/-- The processor in a coroutine that has just got it: it returns from the call it waited in,
or it starts. -/
def Arrives (image : Image) (p : Process) (id : Nat) (place : Place) (t : Cpu) : Prop :=
  (∃ s, p.left id = some s ∧ Returned s t) ∨ p.left id = none ∧ Entered image place t

/-! ## The invariant -/

structure Inv (image : Image) (p : Process) : Prop where
  sched : ∃ below, SchedulerDiscipline.Inv p.machine below
  laid : Laid p
  sized : ∀ id place, id ≠ mainCoId → p.place id = some place → place.size = stackSize image.stsize
  made : ∀ id c, p.machine.sch.cort id = some c → ∃ place, p.place id = some place
  empty : ∀ id, p.machine.sch.cort id = none → p.place id = none
  saved : ∀ id c, id ≠ p.machine.exec → p.machine.sch.cort id = some c → c.status ≠ .dead →
    c.ctx = .saved id → ∃ place s, p.place id = some place ∧ p.left id = some s ∧
      Waits p.bytes place s
  fresh : ∀ id c, id ≠ p.machine.exec → p.machine.sch.cort id = some c → c.status ≠ .dead →
    c.ctx = .entry → ∃ place, p.place id = some place ∧ place.size = stackSize image.stsize ∧
      p.left id = none ∧ Holds p.bytes place.ctx (initial image place)

theorem stackSize_large (stsize : Int) : 32 ≤ stackSize stsize := by
  unfold stackSize minStackSize maxStackSize
  omega

section Keeping
variable {image : Image} {p : Process} {m : Machine} {own place : Place} {octx id : Nat}
  {ret : Word} {c : Context}

/-- The context of a coroutine that may get the processor, and what its code sees then. -/
theorem Inv.target (h : Inv image p) (hands : Hands p.machine m) : ∃ place c,
    p.place m.exec = some place ∧ Holds p.bytes place.ctx c ∧
    (place.stack + 8 ≤ c.rsp.toNat ∧ c.rsp.toNat ≤ place.stack + place.size) ∧
    (∀ s, p.left m.exec = some s → c.rsp.toNat = (s.reg .rsp).toNat + 8) ∧
    ∀ s byte, Arrives image p m.exec place (c.enter s byte) := by
  obtain ⟨co, held, alive, ctx⟩ := hands.target
  rcases ctx with entry | saved
  · obtain ⟨place, target, size, unsaved, holds⟩ := h.fresh _ co hands.away held alive entry
    have large : 32 ≤ place.size := size ▸ stackSize_large image.stsize
    have fits := (h.laid.placed _ _ target).stack.2.1
    have top := initial_rsp image large fits
    refine ⟨place, initial image place, target, holds, by omega, fun s left => ?_,
      fun s byte => .inr ⟨unsaved, initial_enters image large fits s byte⟩⟩
    rw [unsaved] at left
    cases left
  · obtain ⟨place, s, target, left, waits⟩ := h.saved _ co hands.away held alive saved
    have top := waits.top
    have fits := (h.laid.placed _ _ target).stack.2.1
    have rsp : (ofCaller s).rsp.toNat = (s.reg .rsp).toNat + 8 := by
      have behind : (ofCaller s).rsp = s.reg .rsp + 8 := rfl
      rw [behind]
      bv_omega
    refine ⟨place, ofCaller s, target, waits.context, by omega, fun s' left' => ?_,
      fun t byte => .inl ⟨s, left, ?_⟩⟩
    · obtain rfl : s = s' := Option.some.inj (left.symm.trans left')
      exact rsp
    · exact ⟨rfl, enter_rsp _ _ _, enter_rax _ _ _,
        fun r among => enter_placed _ _ _ (List.mem_map_of_mem among), rfl, rfl⟩

/-- Where the running coroutine is saved: in its record, or, when it is dead, on its stack. -/
structure Saves (p : Process) (m : Machine) (octx : Nat) : Prop where
  on : OnStack p
  spot : Spot p octx
  record : (∃ own, p.place p.machine.exec = some own ∧ octx = own.ctx) ∨
    ∀ c, m.sch.cort p.machine.exec = some c → c.status = .dead

/-- The stacks of the coroutines that do not run are left alone, but for what the running code
`wrote`. One that gets the processor back finds what is above its stack pointer. -/
def Spares (p : Process) (wrote : Nat → Prop) (p' : Process) : Prop :=
  ∀ id place x, id ≠ p.machine.exec → p.place id = some place →
    place.stack ≤ x → x < place.stack + place.size →
    (id = p'.machine.exec → ∃ s, p.left id = some s ∧ (s.reg .rsp).toNat + 8 ≤ x) →
    ¬ wrote x → p'.bytes x = p.bytes x

/-- What a control transfer leads to. -/
structure Switched (image : Image) (p : Process) (m : Machine) (octx : Nat) (ret : Word)
    (p' : Process) : Prop where
  inv : Inv image p'
  machine : p'.machine = m
  place : p'.place = p.place
  arrives : ∃ place, p.place m.exec = some place ∧ Arrives image p m.exec place p'.cpu ∧
    ∃ called, Called p ret called ∧ p'.left = Function.update p.left p.machine.exec (some called)
  spares : Spares p (fun _ => False) p'
  own : ∀ own, p.place p.machine.exec = some own → octx = own.ctx → ∀ x,
    (p.cpu.reg .rsp).toNat ≤ x → x < own.stack + own.size → p'.bytes x = p.bytes x

/-- The switch keeps the invariant, and faults nowhere. -/
theorem Inv.hand (h : Inv image p) (hands : Hands p.machine m)
    (sched : ∃ below, SchedulerDiscipline.Inv m below) (saves : Saves p m octx) (ret : Word) :
    ∃ place p', p.place m.exec = some place ∧ p.transfer m octx place.ctx ret = .ok p' ∧
      Switched image p m octx ret p' := by
  obtain ⟨place, c, target, held, room, resumes, arrives⟩ := h.target hands
  obtain ⟨below, discipline⟩ := h.sched
  obtain ⟨current, here, -⟩ := discipline.current
  obtain ⟨own, mine⟩ := h.made _ _ (discipline.on_cpu ▸ here)
  obtain ⟨called, byte, is_called, ran, saved, is⟩ :=
    transfer_spec h.laid mine saves.on saves.spot hands.away target held room m ret
  have rsp := is_called.rsp
  have blocks := is_called.blocks
  have bytes := is_called.bytes
  have size : coctxSize = 144 := rfl
  obtain ⟨low, high⟩ := saves.on own mine
  -- the transfer changes the context and one word on each of the two stacks
  have kept {x : Nat} (on_own : x < (p.cpu.reg .rsp).toNat - 8 ∨ (p.cpu.reg .rsp).toNat ≤ x)
      (on_spot : x < octx ∨ octx + coctxSize ≤ x)
      (on_target : x < c.rsp.toNat - 8 ∨ c.rsp.toNat ≤ x) : byte x = p.bytes x := by
    rw [is, put_outside _ _ _ _ (by rw [encode_length]; omega),
      putFields_outside (fields_within _) (by omega), bytes,
      put_outside _ _ _ _ (by rw [encode_length]; omega)]
  have others {id : Nat} {pl : Place} (other : id ≠ p.machine.exec) (at_id : p.place id = some pl)
      (x : Nat) (from_ctx : pl.ctx ≤ x) (in_ctx : x < pl.ctx + coctxSize) : byte x = p.bytes x := by
    have on_own := h.laid.crossed _ _ _ _ at_id mine
    have on_target := h.laid.crossed _ _ _ _ at_id target
    obtain ⟨on_spot, -⟩ := saves.spot.others id pl other at_id
    unfold Apart at on_own on_target on_spot
    exact kept (by omega) (by omega) (by omega)
  have behind (own_ctx : octx = own.ctx) : Waits byte own called := by
    refine ⟨own_ctx ▸ saved, ?_⟩
    rw [rsp]
    have positive := (h.laid.placed _ _ mine).stack.1
    have below_top : (p.cpu.reg .rsp - 8).toNat = (p.cpu.reg .rsp).toNat - 8 := by bv_omega
    omega
  have in_slot {id : Nat} {c : Cort} (away : id ≠ m.exec) (other : id ≠ p.machine.exec)
      (held : m.sch.cort id = some c) : p.machine.sch.cort id = some c := by
    rw [← hands.others id other away, held]
  refine ⟨place, _, target, ran, ?_, rfl, rfl, ⟨place, target, arrives called byte, called,
    is_called, rfl⟩, ?_, ?_⟩
  · constructor
    · exact sched
    · exact h.laid.congr rfl (by rw [← blocks]; rfl)
    · exact h.sized
    · intro id c held
      by_cases leaving : id = p.machine.exec
      · subst leaving
        exact ⟨own, mine⟩
      · by_cases arriving : id = m.exec
        · subst arriving
          exact ⟨place, target⟩
        · exact h.made id c (in_slot arriving leaving held)
    · intro id vacant
      by_cases leaving : id = p.machine.exec
      · obtain ⟨c, held, -⟩ := hands.leaves
        rw [← leaving, vacant] at held
        cases held
      · by_cases arriving : id = m.exec
        · obtain ⟨c, held⟩ := hands.arrives
          rw [← arriving, vacant] at held
          cases held
        · exact h.empty id (by rw [← hands.others id leaving arriving, vacant])
    · intro id c away held alive ctx
      by_cases leaving : id = p.machine.exec
      · subst leaving
        obtain own_ctx | dead := saves.record
        · obtain ⟨own', mine', own_ctx⟩ := own_ctx
          obtain rfl : own = own' := Option.some.inj (mine.symm.trans mine')
          exact ⟨own, called, mine, Function.update_self _ _ _, behind own_ctx⟩
        · exact absurd (dead c held) alive
      · obtain ⟨pl, s, at_id, left, waits⟩ :=
          h.saved id c leaving (in_slot away leaving held) alive ctx
        exact ⟨pl, s, at_id, (Function.update_of_ne leaving _ _).trans left,
          waits.congr (others leaving at_id)⟩
    · intro id c away held alive ctx
      by_cases leaving : id = p.machine.exec
      · subst leaving
        obtain ⟨c', held', dead | saved⟩ := hands.leaves
        · exact absurd (Option.some.inj (held'.symm.trans held) ▸ dead) alive
        · rw [Option.some.inj (held'.symm.trans held), ctx] at saved
          cases saved
      · obtain ⟨pl, at_id, size', left, holds⟩ :=
          h.fresh id c leaving (in_slot away leaving held) alive ctx
        refine ⟨pl, at_id, size', (Function.update_of_ne leaving _ _).trans left, ?_⟩
        exact holds.congr fun x low high => others leaving at_id x low (by omega)
  · intro id pl x other at_id from_stack to_top above _
    have on_own := (h.laid.apart _ _ _ _ (Ne.symm other) mine at_id).2
    obtain ⟨-, on_spot⟩ := saves.spot.others id pl other at_id
    have on_target : x < c.rsp.toNat - 8 ∨ c.rsp.toNat ≤ x := by
      by_cases arriving : id = m.exec
      · obtain ⟨s, left, high⟩ := above arriving
        have resumed := resumes s (arriving ▸ left)
        omega
      · have apart := (h.laid.apart _ _ _ _ (Ne.symm arriving) target at_id).2
        unfold Apart at apart
        omega
    unfold Apart at on_own on_spot
    exact kept (by omega) (by omega) on_target
  · intro own' mine' own_ctx x from_rsp to_top
    obtain rfl : own = own' := Option.some.inj (mine.symm.trans mine')
    have on_spot := h.laid.crossed _ _ _ _ mine mine
    have on_target := (h.laid.apart _ _ _ _ hands.away target mine).2
    unfold Apart at on_spot on_target
    exact kept (.inr from_rsp) (by omega) (by omega)

/-! ## One step -/

/-- What a step does to the coroutines that do not run before it or after it, and what the one
sees that gets the processor. -/
structure Stepped (image : Image) (p : Process) (wrote : Nat → Prop) (p' : Process) : Prop where
  inv : Inv image p'
  places : ∀ id place, p.place id = some place → p'.place id = some place
  aside : ∀ id, id ≠ p.machine.exec → id ≠ p'.machine.exec →
    live (p.machine.sch.cort id) = true →
    p'.left id = p.left id ∧ live (p'.machine.sch.cort id) = true
  arrives : p'.machine.exec ≠ p.machine.exec → ∃ place, p.place p'.machine.exec = some place ∧
    Arrives image p p'.machine.exec place p'.cpu
  spares : Spares p wrote p'

theorem Inv.mine (h : Inv image p) : ∃ own, p.place p.machine.exec = some own := by
  obtain ⟨below, discipline⟩ := h.sched
  obtain ⟨current, here, -⟩ := discipline.current
  exact h.made _ _ (discipline.on_cpu ▸ here)

theorem Inv.code {cpu : Cpu} (h : Inv image p) (confined : Confined p cpu) :
    Stepped image p (fun x => cpu.mem.byte x ≠ p.bytes x) { p with cpu := cpu } where
  inv := {
    sched := h.sched
    laid := {
      placed := fun id pl at_id => by
        obtain ⟨⟨positive, fits, -⟩, positive', fits', -⟩ := h.laid.placed id pl at_id
        obtain ⟨block, block'⟩ := confined.blocks id pl at_id
        exact ⟨⟨positive, fits, block⟩, positive', fits', block'⟩
      crossed := h.laid.crossed
      apart := h.laid.apart }
    sized := h.sized
    made := h.made
    empty := h.empty
    saved := fun id c away held alive ctx => by
      obtain ⟨pl, s, at_id, left, waits⟩ := h.saved id c away held alive ctx
      exact ⟨pl, s, at_id, left, waits.congr (confined.contexts id pl at_id)⟩
    fresh := fun id c away held alive ctx => by
      obtain ⟨pl, at_id, size, left, holds⟩ := h.fresh id c away held alive ctx
      refine ⟨pl, at_id, size, left, holds.congr fun x low high => ?_⟩
      exact confined.contexts id pl at_id x low (by unfold coctxSize; omega) }
  places _ _ at_id := at_id
  aside _ _ _ alive := ⟨rfl, alive⟩
  arrives moved := absurd rfl moved
  spares _ _ _ _ _ _ _ _ unwritten := Classical.not_not.mp unwritten

theorem Inv.saves_record (h : Inv image p) (on : OnStack p) (mine : p.place p.machine.exec = some own) :
    Saves p m own.ctx := by
  obtain ⟨low, high⟩ := on own mine
  obtain ⟨positive, fits, block⟩ := (h.laid.placed _ _ mine).ctx
  refine ⟨on, ⟨positive, fits, ⟨_, block, Nat.le_refl _, Nat.le_refl _⟩, ?_, ?_⟩, .inl ⟨own, mine, rfl⟩⟩
  · exact (h.laid.crossed _ _ _ _ mine mine).inner (by omega) (by omega)
  · intro id pl other at_id
    exact ⟨(h.laid.apart _ _ _ _ (Ne.symm other) mine at_id).1, h.laid.crossed _ _ _ _ mine at_id⟩

theorem Inv.saves_dummy (h : Inv image p) (on : OnStack p) {dummy : Nat}
    (local_variable : ∀ place, p.place p.machine.exec = some place →
      (p.cpu.reg .rsp).toNat ≤ dummy ∧ dummy + coctxSize ≤ place.stack + place.size)
    (dead : ∀ c, m.sch.cort p.machine.exec = some c → c.status = .dead) : Saves p m dummy := by
  obtain ⟨own, mine⟩ := h.mine
  obtain ⟨low, high⟩ := on own mine
  obtain ⟨above, below⟩ := local_variable own mine
  obtain ⟨positive, fits, block⟩ := (h.laid.placed _ _ mine).stack
  refine ⟨on, ⟨by omega, by omega, ⟨_, block, by dsimp only; omega, below⟩, ?_, ?_⟩, .inr dead⟩
  · unfold Apart
    omega
  · intro id pl other at_id
    have crossed := h.laid.crossed _ _ _ _ at_id mine
    have apart := (h.laid.apart _ _ _ _ (Ne.symm other) mine at_id).2
    exact ⟨crossed.symm.inner (by omega) (by omega), apart.inner (by omega) (by omega)⟩

theorem Switched.stepped {p' : Process} (h : Switched image p m octx ret p')
    (hands : Hands p.machine m) : Stepped image p (fun _ => False) p' := by
  have machine := h.machine
  subst machine
  obtain ⟨place, target, arrives, called, -, left⟩ := h.arrives
  refine ⟨h.inv, fun id pl at_id => h.place ▸ at_id, ?_, fun _ => ⟨place, target, arrives⟩,
    h.spares⟩
  intro id leaving arriving alive
  rw [left, Function.update_of_ne leaving, hands.others id leaving arriving]
  exact ⟨rfl, alive⟩

/-- A live coroutine has called `coctx_swap` and is to go on at `ret`. -/
structure Leaves (p : Process) (ret : Word) (p' : Process) : Prop where
  alive : live (p'.machine.sch.cort p.machine.exec) = true
  left : ∃ called, Called p ret called ∧ p'.left p.machine.exec = some called
  stack : ∀ own, p.place p.machine.exec = some own → ∀ x, (p.cpu.reg .rsp).toNat ≤ x →
    x < own.stack + own.size → p'.bytes x = p.bytes x

theorem Switched.leaves {p' : Process} (h : Switched image p m own.ctx ret p')
    (mine : p.place p.machine.exec = some own)
    (alive : live (m.sch.cort p.machine.exec) = true) : Leaves p ret p' := by
  obtain ⟨place, -, -, called, is_called, left⟩ := h.arrives
  refine ⟨by rwa [h.machine], ⟨called, is_called, ?_⟩, fun own' mine' => h.own own' mine' ?_⟩
  · rw [left, Function.update_self]
  · rw [Option.some.inj (mine.symm.trans mine')]

/-! ## A new coroutine -/

/-- The context of a new coroutine, in its record. -/
theorem makeContext_spec (placed : Placed p.cpu.mem place) (size : place.size = stackSize image.stsize) :
    ∃ byte, p.makeContext image place = .ok (p.setMem { p.cpu.mem with byte }) ∧
      Holds byte place.ctx (initial image place) ∧
      ∀ x, x < place.ctx ∨ place.ctx + coctxSize ≤ x → byte x = p.bytes x := by
  obtain ⟨⟨positive, fits, block⟩, positive', fits', -⟩ := placed
  have length : coctxSize = 144 := rfl
  have inner {byte : Nat → UInt8} {off n : Nat} (inside : off + n ≤ coctxSize) :
      Owned { p.cpu.mem with byte } (place.ctx + off) n :=
    ⟨_, block, Nat.le_add_right _ _, by dsimp only; omega⟩
  obtain ⟨byte₁, is₁⟩ : ∃ byte, byte = put p.bytes (place.ctx + 136) (encode 8 place.stack) := ⟨_, rfl⟩
  obtain ⟨byte₂, is₂⟩ : ∃ byte,
    byte = put byte₁ (place.ctx + 128) (encode 8 (stackSize image.stsize)) := ⟨_, rfl⟩
  have first : store p.cpu.mem 8 (place.ctx + 136) place.stack =
      .ok { p.cpu.mem with byte := byte₁ } := by
    rw [is₁]
    exact store_ok (by omega) (inner (by decide))
  have second : store { p.cpu.mem with byte := byte₁ } 8 (place.ctx + 128)
      (stackSize image.stsize) = .ok { p.cpu.mem with byte := byte₂ } := by
    rw [is₂]
    exact store_ok (by omega) (inner (by decide))
  have base : wordAt byte₂ 8 (place.ctx + 136) = (BitVec.ofNat 64 place.stack).toNat := by
    have apart : Apart (place.ctx + 128) 8 (place.ctx + 136) 8 := .inl (by omega)
    rw [is₂, wordAt_put_frame _ (by rwa [encode_length]), is₁, wordAt_put _ (by omega),
      BitVec.toNat_ofNat, Nat.mod_eq_of_lt (by omega)]
  have extent : wordAt byte₂ 8 (place.ctx + 128) = (BitVec.ofNat 64 place.size).toNat := by
    rw [is₂, ← size, wordAt_put _ (by omega), BitVec.toNat_ofNat, Nat.mod_eq_of_lt (by omega)]
  have owned : Owned { p.cpu.mem with byte := byte₂ } place.ctx coctxSize :=
    ⟨_, block, Nat.le_refl _, Nat.le_refl _⟩
  have spec := coctxMake_spec image.cofunc (image.sched.setWidth 32)
    ((image.sched >>> 32).setWidth 32) positive owned base extent
  obtain ⟨byte, made, holds, kept⟩ := spec
  refine ⟨byte, ?_, holds, fun x outside => ?_⟩
  · simp only [Process.makeContext, first, ok_bind, second, made]
  · have regs : regsSize = 128 := rfl
    rw [kept x (by omega)]
    dsimp only
    rw [is₂, put_outside _ _ _ _ (by rw [encode_length]; omega), is₁,
      put_outside _ _ _ _ (by rw [encode_length]; omega)]

theorem malloc_place (p : Process) (id : Nat) (fresh : Place) :
    (p.malloc id fresh).place id = some fresh := Function.update_self _ _ _

theorem malloc_other (p : Process) {id id' : Nat} (fresh : Place) (other : id' ≠ id) :
    (p.malloc id fresh).place id' = p.place id' := Function.update_of_ne other _ _

/-- Two blocks that `malloc` returned meet no other. -/
theorem Laid.malloc (h : Laid p) {fresh : Place} (new : FreshPlace image p.cpu.mem fresh) (id : Nat) :
    Laid (p.malloc id fresh) := by
  have old {id' : Nat} {pl : Place} (other : id' ≠ id)
      (at_id : (p.malloc id fresh).place id' = some pl) : p.place id' = some pl :=
    (malloc_other p fresh other).symm.trans at_id
  have self {id' : Nat} {pl : Place} (same : id' = id)
      (at_id : (p.malloc id fresh).place id' = some pl) : fresh = pl := by
    subst same
    exact Option.some.inj ((malloc_place p id' fresh).symm.trans at_id)
  have from_ctx (pl : Place) (placed : Placed p.cpu.mem pl) :
      Apart pl.ctx coctxSize fresh.ctx coctxSize ∧ Apart pl.stack pl.size fresh.ctx coctxSize :=
    ⟨(new.ctx.2.2 _ placed.ctx.2.2).2, (new.ctx.2.2 _ placed.stack.2.2).2⟩
  have from_stack (pl : Place) (placed : Placed p.cpu.mem pl) :
      Apart pl.ctx coctxSize fresh.stack fresh.size ∧ Apart pl.stack pl.size fresh.stack fresh.size :=
    ⟨(new.stack.2.2 _ (List.mem_cons_of_mem _ placed.ctx.2.2)).2,
      (new.stack.2.2 _ (List.mem_cons_of_mem _ placed.stack.2.2)).2⟩
  have own : Apart fresh.ctx coctxSize fresh.stack fresh.size :=
    (new.stack.2.2 (fresh.ctx, coctxSize) List.mem_cons_self).2
  constructor
  · intro id' pl at_id
    by_cases same : id' = id
    · obtain rfl := self same at_id
      exact ⟨⟨new.ctx.1, new.ctx.2.1, List.mem_cons_of_mem _ List.mem_cons_self⟩,
        new.stack.1, new.fits, List.mem_cons_self⟩
    · obtain ⟨⟨positive, fits, block⟩, positive', fits', block'⟩ := h.placed id' pl (old same at_id)
      exact ⟨⟨positive, fits, List.mem_cons_of_mem _ (List.mem_cons_of_mem _ block)⟩,
        positive', fits', List.mem_cons_of_mem _ (List.mem_cons_of_mem _ block')⟩
  · intro i j pl pl' at_i at_j
    by_cases first : i = id
    · obtain rfl := self first at_i
      by_cases second : j = id
      · obtain rfl := self second at_j
        exact own
      · exact (from_ctx pl' (h.placed _ _ (old second at_j))).2.symm
    · by_cases second : j = id
      · obtain rfl := self second at_j
        exact (from_stack pl (h.placed _ _ (old first at_i))).1
      · exact h.crossed i j pl pl' (old first at_i) (old second at_j)
  · intro i j pl pl' other at_i at_j
    by_cases first : i = id
    · have second : j ≠ id := fun same => other (first.trans same.symm)
      obtain rfl := self first at_i
      have placed := h.placed _ _ (old second at_j)
      exact ⟨(from_ctx pl' placed).1.symm, (from_stack pl' placed).2.symm⟩
    · by_cases second : j = id
      · obtain rfl := self second at_j
        have placed := h.placed _ _ (old first at_i)
        exact ⟨(from_ctx pl placed).1, (from_stack pl placed).2⟩
      · exact h.apart i j pl pl' other (old first at_i) (old second at_j)

/-- The slot that `cort_new` takes. -/
theorem Inv.takes (h : Inv image p) (func ud : Nat) : ∃ cid c sch,
    Source.Routine.cortNew p.machine.sch (some func) ud = .ok (some cid, sch) ∧
    live (p.machine.sch.cort cid) = false ∧ c.status = .suspend ∧ c.ctx = .entry ∧
    sch.running = p.machine.sch.running ∧
    (∀ j, sch.cort j = if j = cid then some c else p.machine.sch.cort j) ∧
    cid ≠ p.machine.exec ∧ cid ≠ mainCoId ∧
    ∃ below, SchedulerDiscipline.Inv { p.machine with sch } below := by
  obtain ⟨below, discipline⟩ := h.sched
  obtain ⟨cid, sch, made, takes⟩ := Inv.takesVacant discipline (some func) ud
  obtain ⟨cur, here, runs⟩ := discipline.current
  obtain none | ⟨cid', c, sch', made', -, status, ctx, slots, running, -⟩ :=
    cortNew_effects func ud discipline.cap_pos ⟨cur, here⟩
  · rw [made] at none
    cases none
  · rw [made] at made'
    cases made'
    have alive : cid ≠ p.machine.exec := by
      rintro rfl
      have was := takes.was
      rw [discipline.on_cpu, here, live, runs] at was
      cases was
    have not_main : cid ≠ mainCoId := by
      rintro rfl
      obtain ⟨c, held, status⟩ := discipline.disciplined.main_alive
      have was := takes.was
      rw [held, live] at was
      rcases status with status | status <;> rw [status] at was <;> cases was
    have taken : Source.Routine.step p.machine (.new func ud) = .ok { p.machine with sch } := by
      simp only [Source.Routine.step, made, ok_bind]
    exact ⟨cid, c, sch, made, takes.was, status, ctx, running, slots, alive, not_main,
      step_inv discipline taken⟩

theorem Inv.new (h : Inv image p) {func ud : Nat} {fresh : Place}
    (admitted : Admits image p (.new func ud fresh)) :
    ∃ p', p.cortNew image func ud fresh = .ok p' ∧ Stepped image p (fun _ => False) p' ∧
      Source.Routine.step p.machine (.new func ud) = .ok p'.machine := by
  obtain ⟨cid, c, sch, made, dead, -, entry, running, slots, away, not_main, sched⟩ :=
    h.takes func ud
  obtain ⟨q, is⟩ : ∃ q, q = if p.machine.sch.cort cid = none then p.malloc cid fresh else p :=
    ⟨_, rfl⟩
  obtain ⟨place, at_cid, laid, size, bytes, machine, left, old, others⟩ : ∃ place,
      q.place cid = some place ∧ Laid q ∧ place.size = stackSize image.stsize ∧
      q.bytes = p.bytes ∧ q.machine = p.machine ∧ q.left = p.left ∧
      (∀ pl, p.place cid = some pl → q.place cid = some pl) ∧
      ∀ id, id ≠ cid → q.place id = p.place id := by
    by_cases vacant : p.machine.sch.cort cid = none
    · rw [if_pos vacant] at is
      have new := admitted cid sch made vacant
      subst is
      refine ⟨fresh, malloc_place _ _ _, h.laid.malloc new cid, new.size, rfl, rfl, rfl, ?_,
        fun id other => malloc_other _ _ other⟩
      intro pl at_id
      rw [h.empty cid vacant] at at_id
      cases at_id
    · rw [if_neg vacant] at is
      subst is
      obtain ⟨co, held⟩ := Option.ne_none_iff_exists'.mp vacant
      obtain ⟨place, at_cid⟩ := h.made cid co held
      exact ⟨place, at_cid, h.laid, h.sized cid place not_main at_cid, rfl, rfl, rfl,
        fun _ at_id => at_id, fun _ _ => rfl⟩
  obtain ⟨byte, context, holds, kept⟩ := makeContext_spec (laid.placed _ _ at_cid) size
  have stepped : p.cortNew image func ud fresh = .ok { q.setMem { q.cpu.mem with byte } with
      machine := { p.machine with sch }, left := Function.update p.left cid none } := by
    simp only [Process.cortNew, made, ok_bind, ← is, at_cid, context]
    rw [← machine, ← left]
    rfl
  have slot {id : Nat} {c' : Cort} (other : id ≠ cid) (held : sch.cort id = some c') :
      p.machine.sch.cort id = some c' := by
    rw [← held, slots, if_neg other]
  have untouched {id : Nat} {pl : Place} (other : id ≠ cid) (at_id : p.place id = some pl) (x : Nat)
      (low : pl.ctx ≤ x) (high : x < pl.ctx + coctxSize) : byte x = p.bytes x := by
    have ctx := (laid.apart _ _ _ _ other ((others id other).trans at_id) at_cid).1
    unfold Apart at ctx
    rw [← bytes]
    exact kept x (by omega)
  refine ⟨_, stepped, ⟨?_, ?_, ?_, ?_, ?_⟩, ?_⟩
  · constructor
    · exact sched
    · exact laid.congr rfl rfl
    · intro id pl not_main' at_id
      by_cases here : id = cid
      · subst here
        obtain rfl : place = pl := Option.some.inj (at_cid.symm.trans at_id)
        exact size
      · exact h.sized id pl not_main' ((others id here).symm.trans at_id)
    · intro id c' held
      by_cases here : id = cid
      · subst here
        exact ⟨place, at_cid⟩
      · obtain ⟨pl, at_id⟩ := h.made id c' (slot here held)
        exact ⟨pl, (others id here).trans at_id⟩
    · intro id vacant
      have none : sch.cort id = none := vacant
      rw [slots] at none
      by_cases here : id = cid
      · rw [if_pos here] at none
        cases none
      · rw [if_neg here] at none
        exact (others id here).trans (h.empty id none)
    · intro id c' running' held alive ctx
      by_cases here : id = cid
      · have same : sch.cort id = some c' := held
        rw [slots, if_pos here] at same
        cases same
        rw [entry] at ctx
        cases ctx
      · obtain ⟨pl, s, at_id, saved, waits⟩ := h.saved id c' running' (slot here held) alive ctx
        exact ⟨pl, s, (others id here).trans at_id, (Function.update_of_ne here _ _).trans saved,
          waits.congr (untouched here at_id)⟩
    · intro id c' running' held alive ctx
      by_cases here : id = cid
      · subst here
        exact ⟨place, at_cid, size, Function.update_self _ _ _, holds⟩
      · obtain ⟨pl, at_id, size', saved, holds'⟩ :=
          h.fresh id c' running' (slot here held) alive ctx
        refine ⟨pl, (others id here).trans at_id, size',
          (Function.update_of_ne here _ _).trans saved, ?_⟩
        exact holds'.congr fun x low high => untouched here at_id x low (by unfold coctxSize; omega)
  · intro id pl at_id
    by_cases here : id = cid
    · subst here
      exact old pl at_id
    · exact (others id here).trans at_id
  · intro id _ _ alive
    have here : id ≠ cid := by
      rintro rfl
      rw [dead] at alive
      cases alive
    refine ⟨Function.update_of_ne here _ _, ?_⟩
    show live (sch.cort id) = true
    rwa [slots, if_neg here]
  · exact fun moved => absurd rfl moved
  · intro id pl x _ at_id low high _ _
    have at_id' : q.place id = some pl := by
      by_cases here : id = cid
      · subst here
        exact old pl at_id
      · exact (others id here).trans at_id
    have stack := laid.crossed _ _ _ _ at_cid at_id'
    unfold Apart at stack
    exact (kept x (by omega)).trans (congrFun bytes x)
  · simp only [Source.Routine.step, made, ok_bind]

/-! ## Every step -/

theorem Inv.refused (h : Inv image p) : Stepped image p (fun _ => False) p where
  inv := h
  places _ _ at_id := at_id
  aside _ _ _ alive := ⟨rfl, alive⟩
  arrives moved := absurd rfl moved
  spares _ _ _ _ _ _ _ _ _ := rfl

theorem resume_step {m m' : Machine} {b : Bool} (ran : cortResume m id = .ok (b, m')) :
    Source.Routine.step m (.resume id) = .ok m' := by
  simp only [Source.Routine.step, ran, ok_bind]

theorem yield_step {m m' : Machine} {b : Bool} (ran : cortYield m = .ok (b, m')) :
    Source.Routine.step m .yield = .ok m' := by
  simp only [Source.Routine.step, ran, ok_bind]

theorem ret_step {m m' : Machine} (not_main : m.exec ≠ mainCoId)
    (ran : cofuncReturn m m.exec = .ok m') : Source.Routine.step m .ret = .ok m' := by
  simp only [Source.Routine.step, if_neg not_main, ran]

theorem Inv.hands_over (h : Inv image p) (hands : Hands p.machine m)
    (sched : ∃ below, SchedulerDiscipline.Inv m below) (saves : Saves p m octx) (ret : Word) :
    ∃ ctx p', p.ctxOf m.exec = .ok ctx ∧ p.transfer m octx ctx ret = .ok p' ∧
      Switched image p m octx ret p' := by
  obtain ⟨place, p', target, ran, switched⟩ := h.hand hands sched saves ret
  exact ⟨place.ctx, p', by simp only [Process.ctxOf, target], ran, switched⟩

theorem Inv.resume {b : Bool} (h : Inv image p) (on : OnStack p)
    (ran : cortResume p.machine id = .ok (b, m)) (ret : Word) :
    ∃ p', p.cortResume id ret = .ok p' ∧ p'.machine = m ∧ Stepped image p (fun _ => False) p' ∧
      (p'.machine.exec ≠ p.machine.exec → Leaves p ret p') := by
  obtain ⟨below, discipline⟩ := h.sched
  cases b with
  | false =>
      have same := BlockedCalls.resume_refused discipline ran
      subst same
      exact ⟨p, by simp only [Process.cortResume, ran, ok_bind]; rfl, rfl, h.refused,
        fun moved => absurd rfl moved⟩
  | true =>
      obtain ⟨hands, target, alive⟩ := resume_hands discipline ran
      obtain ⟨own, mine⟩ := h.mine
      have sched : ∃ below, SchedulerDiscipline.Inv m below :=
        step_inv discipline (resume_step ran)
      obtain ⟨ctx, p', at_ctx, transferred, switched⟩ :=
        h.hands_over hands sched (h.saves_record on mine) ret
      have from_own : p.ctxOf p.machine.sch.running = .ok own.ctx := by
        simp only [Process.ctxOf, hands.running, mine]
      have to_id : p.ctxOf id = .ok ctx := target ▸ at_ctx
      refine ⟨p', ?_, switched.machine, switched.stepped hands, fun _ => switched.leaves mine alive⟩
      simp only [Process.cortResume, ran, ok_bind, if_true, from_own, to_id, transferred]

theorem Inv.yield {b : Bool} (h : Inv image p) (on : OnStack p)
    (ran : cortYield p.machine = .ok (b, m)) (ret : Word) :
    ∃ p', p.cortYield ret = .ok p' ∧ p'.machine = m ∧ Stepped image p (fun _ => False) p' ∧
      (p'.machine.exec ≠ p.machine.exec → Leaves p ret p') := by
  obtain ⟨below, discipline⟩ := h.sched
  cases b with
  | false =>
      have same : m = p.machine := by
        obtain refused | ⟨_, _, _, -, yielded, -⟩ := yield_cases discipline
        · rw [refused] at ran
          cases ran
          rfl
        · rw [yielded] at ran
          cases ran
      subst same
      exact ⟨p, by simp only [Process.cortYield, ran, ok_bind]; rfl, rfl, h.refused,
        fun moved => absurd rfl moved⟩
  | true =>
      obtain ⟨hands, alive⟩ := yield_hands discipline ran
      obtain ⟨own, mine⟩ := h.mine
      have sched : ∃ below, SchedulerDiscipline.Inv m below :=
        step_inv discipline (yield_step ran)
      obtain ⟨ctx, p', at_ctx, transferred, switched⟩ :=
        h.hands_over hands sched (h.saves_record on mine) ret
      have from_own : p.ctxOf p.machine.sch.running = .ok own.ctx := by
        simp only [Process.ctxOf, hands.running, mine]
      refine ⟨p', ?_, switched.machine, switched.stepped hands, fun _ => switched.leaves mine alive⟩
      simp only [Process.cortYield, ran, ok_bind, if_true, from_own, hands.running', at_ctx,
        transferred]

theorem Inv.returns {dummy : Nat} (h : Inv image p) (admitted : Admits image p (.ret dummy ret))
    (not_main : p.machine.exec ≠ mainCoId)
    (ran : cofuncReturn p.machine p.machine.exec = .ok m) :
    ∃ p', p.cofuncReturn dummy ret = .ok p' ∧ p'.machine = m ∧ Stepped image p (fun _ => False) p' := by
  obtain ⟨below, discipline⟩ := h.sched
  obtain ⟨hands, dead⟩ := ret_hands discipline not_main ran
  have sched : ∃ below, SchedulerDiscipline.Inv m below :=
    step_inv discipline (ret_step not_main ran)
  obtain ⟨ctx, p', at_ctx, transferred, switched⟩ :=
    h.hands_over hands sched (h.saves_dummy admitted.1 admitted.2 dead) ret
  refine ⟨p', ?_, switched.machine, switched.stepped hands⟩
  simp only [Process.cofuncReturn, ran, ok_bind, hands.running', at_ctx, transferred]

/-- Where the scheduler takes a step, the processor takes it too. -/
theorem Inv.follows {move : Move} {op : Op} (h : Inv image p) (admitted : Admits image p move)
    (is : move.op = some op) (ran : Source.Routine.step p.machine op = .ok m) :
    ∃ p', Source.RoutineSwap.step image p move = .ok p' ∧ p'.machine = m ∧
      Stepped image p (fun _ => False) p' := by
  cases move with
  | code cpu => cases is
  | new func ud fresh =>
      cases is
      obtain ⟨p', taken, stepped, same⟩ := h.new admitted
      rw [same] at ran
      exact ⟨p', taken, Except.ok.inj ran, stepped⟩
  | resume id ret =>
      cases is
      obtain ⟨⟨b, m'⟩, resumed, last⟩ := bind_ok ran
      cases last
      obtain ⟨p', taken, same, stepped, -⟩ := h.resume admitted resumed ret
      exact ⟨p', taken, same, stepped⟩
  | yield ret =>
      cases is
      obtain ⟨⟨b, m'⟩, yielded, last⟩ := bind_ok ran
      cases last
      obtain ⟨p', taken, same, stepped, -⟩ := h.yield admitted yielded ret
      exact ⟨p', taken, same, stepped⟩
  | ret dummy ret =>
      cases is
      simp only [Source.Routine.step] at ran
      split at ran
      · cases ran
      · next not_main =>
        obtain ⟨p', taken, same, stepped⟩ := h.returns admitted not_main ran
        refine ⟨p', ?_, same, stepped⟩
        simp only [Source.RoutineSwap.step, if_neg not_main, taken]

/-- What comes after does not fail. -/
theorem bind_error {δ β γ : Type} {x : Except δ β} {next : β → Except δ γ} {e : δ}
    (total : ∀ b, ∃ c, next b = .ok c) (failed : (x >>= next) = .error e) : x = .error e := by
  cases x with
  | error e' => exact congrArg Except.error (Except.error.inj failed)
  | ok b =>
      obtain ⟨c, last⟩ := total b
      have fine : next b = .error e := failed
      rw [last] at fine
      cases fine

/-- The step is the one the scheduler takes, also where that one fails. -/
theorem Inv.agrees {move : Move} (h : Inv image p) (admitted : Admits image p move) :
    (Source.RoutineSwap.step image p move).map Process.machine =
      match move.op with
      | none => .ok p.machine
      | some op => Source.Routine.step p.machine op := by
  cases sched : move.op with
  | none =>
      cases move with
      | code cpu => rfl
      | new => cases sched
      | resume => cases sched
      | yield => cases sched
      | ret => cases sched
  | some op =>
      cases ran : Source.Routine.step p.machine op with
      | ok m =>
          obtain ⟨p', taken, same, -⟩ := h.follows admitted sched ran
          simp only [taken, Except.map, same, ran]
      | error e =>
          suffices failed : Source.RoutineSwap.step image p move = .error e by
            simp only [failed, Except.map, ran]
          cases move with
          | code cpu => cases sched
          | new func ud fresh =>
              cases sched
              obtain ⟨p', -, -, same⟩ := h.new admitted
              rw [same] at ran
              cases ran
          | resume id ret =>
              cases sched
              have failed : cortResume p.machine id = .error e :=
                bind_error (fun b => ⟨b.2, rfl⟩) ran
              simp only [Source.RoutineSwap.step, Process.cortResume, failed]
              rfl
          | yield ret =>
              cases sched
              have failed : cortYield p.machine = .error e := bind_error (fun b => ⟨b.2, rfl⟩) ran
              simp only [Source.RoutineSwap.step, Process.cortYield, failed]
              rfl
          | ret dummy ret =>
              cases sched
              simp only [Source.Routine.step] at ran
              simp only [Source.RoutineSwap.step]
              split at ran
              · next main =>
                cases ran
                exact if_pos main
              · next not_main =>
                rw [if_neg not_main, Process.cofuncReturn, ran]
                rfl

theorem Inv.step {move : Move} {p' : Process} (h : Inv image p) (admitted : Admits image p move)
    (taken : Source.RoutineSwap.step image p move = .ok p') : Stepped image p (move.Writes p) p' := by
  have agrees := h.agrees admitted
  rw [taken] at agrees
  cases sched : move.op with
  | none =>
      cases move with
      | code cpu =>
          cases taken
          exact h.code admitted
      | new => cases sched
      | resume => cases sched
      | yield => cases sched
      | ret => cases sched
  | some op =>
      rw [sched] at agrees
      obtain ⟨p'', taken', -, stepped⟩ := h.follows admitted sched agrees.symm
      obtain rfl := Except.ok.inj (taken'.symm.trans taken)
      cases move with
      | code cpu => cases sched
      | new | resume | yield | ret => exact stepped

end Keeping

end Colinlib.Guarantees.ContextSwitch
