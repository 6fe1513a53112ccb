import Colinlib.Theory.ByteMemory
import Colinlib.Theory.Runs
import Mathlib.Logic.Function.Basic

/-!
# Straight-line code of x86-64

The sixteen general registers, the control words of the two floating-point units and a
byte-addressed memory. An instruction is written as the assembler writes it, the source
operand first. Code without jumps is a list of instructions, and running it is folding them;
`ret` leaves the address it returns to in `rip`. An access outside every allocation is a
fault. Arithmetic flags are left out. Nothing here names a particular program.
-/
namespace Colinlib.Theory.Amd64
open CMemory ByteMemory

inductive Reg where
  | rax | rbx | rcx | rdx | rsi | rdi | rbp | rsp
  | r8 | r9 | r10 | r11 | r12 | r13 | r14 | r15
  deriving DecidableEq, Repr

abbrev Word := BitVec 64

structure Cpu where
  reg : Reg → Word
  rip : Word
  fpucw : BitVec 16
  mxcsr : BitVec 32
  mem : Memory

/-- `disp(%base)`. -/
structure Operand where
  disp : Nat
  base : Reg
  deriving DecidableEq, Repr

inductive Instr where
  | store (src : Reg) (dst : Operand)
  | load (src : Operand) (dst : Reg)
  | move (src dst : Reg)
  | lea (src : Operand) (dst : Reg)
  | fnstcw (dst : Operand)
  | stmxcsr (dst : Operand)
  | fldcw (src : Operand)
  | ldmxcsr (src : Operand)
  | push (src : Reg)
  | xorl (src dst : Reg)
  | ret
  deriving DecidableEq, Repr

namespace Cpu

def setReg (s : Cpu) (r : Reg) (v : Word) : Cpu := { s with reg := Function.update s.reg r v }

def setRip (s : Cpu) (v : Word) : Cpu := { s with rip := v }

def address (s : Cpu) (o : Operand) : Word := s.reg o.base + BitVec.ofNat 64 o.disp

/-- A word onto the stack. -/
def push (s : Cpu) (v : Word) : Except Fault Cpu := do
  let top := s.reg .rsp - 8
  let mem ← ByteMemory.store s.mem 8 top.toNat v.toNat
  .ok { s.setReg .rsp top with mem }

end Cpu

def exec (s : Cpu) : Instr → Except Fault Cpu
  | .store src dst => do
    let mem ← ByteMemory.store s.mem 8 (s.address dst).toNat (s.reg src).toNat
    .ok { s with mem }
  | .load src dst => do
    let v ← ByteMemory.load s.mem 8 (s.address src).toNat
    .ok (s.setReg dst (BitVec.ofNat 64 v))
  | .move src dst => .ok (s.setReg dst (s.reg src))
  | .lea src dst => .ok (s.setReg dst (s.address src))
  | .fnstcw dst => do
    let mem ← ByteMemory.store s.mem 2 (s.address dst).toNat s.fpucw.toNat
    .ok { s with mem }
  | .stmxcsr dst => do
    let mem ← ByteMemory.store s.mem 4 (s.address dst).toNat s.mxcsr.toNat
    .ok { s with mem }
  | .fldcw src => do
    let v ← ByteMemory.load s.mem 2 (s.address src).toNat
    .ok { s with fpucw := BitVec.ofNat 16 v }
  | .ldmxcsr src => do
    let v ← ByteMemory.load s.mem 4 (s.address src).toNat
    .ok { s with mxcsr := BitVec.ofNat 32 v }
  | .push src => s.push (s.reg src)
  | .xorl src dst =>
    -- a 32-bit result is zero-extended
    .ok (s.setReg dst (((s.reg src).setWidth 32 ^^^ (s.reg dst).setWidth 32).setWidth 64))
  | .ret => do
    let target ← ByteMemory.load s.mem 8 (s.reg .rsp).toNat
    .ok ((s.setReg .rsp (s.reg .rsp + 8)).setRip (BitVec.ofNat 64 target))

def run (s : Cpu) (code : List Instr) : Except Fault Cpu := Runs.run exec s code

/-- The same processor over other bytes. -/
def Cpu.withBytes (s : Cpu) (byte : Nat → UInt8) : Cpu := { s with mem := { s.mem with byte } }

@[simp] theorem withBytes_byte (s : Cpu) (byte : Nat → UInt8) :
    (s.withBytes byte).mem.byte = byte := rfl
@[simp] theorem withBytes_reg (s : Cpu) (byte : Nat → UInt8) : (s.withBytes byte).reg = s.reg := rfl
@[simp] theorem withBytes_fpucw (s : Cpu) (byte : Nat → UInt8) :
    (s.withBytes byte).fpucw = s.fpucw := rfl
@[simp] theorem withBytes_mxcsr (s : Cpu) (byte : Nat → UInt8) :
    (s.withBytes byte).mxcsr = s.mxcsr := rfl
@[simp] theorem withBytes_again (s : Cpu) (byte byte' : Nat → UInt8) :
    (s.withBytes byte).withBytes byte' = s.withBytes byte' := rfl
@[simp] theorem setReg_mem (s : Cpu) (r : Reg) (v : Word) : (s.setReg r v).mem = s.mem := rfl
@[simp] theorem setReg_fpucw (s : Cpu) (r : Reg) (v : Word) : (s.setReg r v).fpucw = s.fpucw := rfl
@[simp] theorem setReg_mxcsr (s : Cpu) (r : Reg) (v : Word) : (s.setReg r v).mxcsr = s.mxcsr := rfl
@[simp] theorem setReg_self (s : Cpu) (r : Reg) (v : Word) : (s.setReg r v).reg r = v :=
  Function.update_self _ _ _

@[simp] theorem setReg_again (s : Cpu) (r : Reg) (v v' : Word) :
    (s.setReg r v).setReg r v' = s.setReg r v' := by
  simp only [Cpu.setReg, Function.update_idem]

/-- Registers are written down before bytes. -/
@[simp] theorem withBytes_setReg (s : Cpu) (r : Reg) (v : Word) (byte : Nat → UInt8) :
    (s.withBytes byte).setReg r v = (s.setReg r v).withBytes byte := rfl
@[simp] theorem withBytes_address (s : Cpu) (byte : Nat → UInt8) (o : Operand) :
    (s.withBytes byte).address o = s.address o := rfl

theorem setReg_other (s : Cpu) {r r' : Reg} (v : Word) (other : r' ≠ r) :
    (s.setReg r v).reg r' = s.reg r' := Function.update_of_ne other _ _

theorem setReg_comm (s : Cpu) {r r' : Reg} (v v' : Word) (other : r ≠ r') :
    (s.setReg r v).setReg r' v' = (s.setReg r' v').setReg r v := by
  simp only [Cpu.setReg, Function.update_comm other]

theorem setReg_address (s : Cpu) {r : Reg} {o : Operand} (v : Word) (other : o.base ≠ r) :
    (s.setReg r v).address o = s.address o := by
  simp only [Cpu.address, setReg_other s v other]

/-! ## Accesses through a pointer -/

/-- The register that loads the eight bytes at `a`. -/
def wordOf (byte : Nat → UInt8) (a : Nat) : Word := BitVec.ofNat 64 (wordAt byte 8 a)

theorem wordOf_eq {byte : Nat → UInt8} {a : Nat} {v : Word} (h : wordAt byte 8 a = v.toNat) :
    wordOf byte a = v := by
  rw [wordOf, h, BitVec.ofNat_toNat, BitVec.setWidth_eq]

/-- Rounding down to a multiple of 16, as the code does it. -/
theorem align_toNat (x : Word) : (x &&& (-16 : Word)).toNat = x.toNat / 16 * 16 := by
  have mask : ∀ i < 64, (-16 : Word).getLsbD i = decide (4 ≤ i) := by decide
  have shifts : x &&& (-16 : Word) = (x >>> 4) <<< 4 := by
    apply BitVec.eq_of_getLsbD_eq
    intro i below
    rw [BitVec.getLsbD_and, mask i below, BitVec.getLsbD_shiftLeft, BitVec.getLsbD_ushiftRight]
    by_cases high : 4 ≤ i
    · simp [high, below, show ¬ i < 4 by omega, show 4 + (i - 4) = i by omega]
    · simp [high, below, show i < 4 by omega]
  have bound := x.isLt
  rw [shifts, BitVec.toNat_shiftLeft, BitVec.toNat_ushiftRight, Nat.shiftLeft_eq,
    Nat.shiftRight_eq_div_pow]
  omega

/-- The `n` bytes from `base` on are in one allocation, at the addresses from `a` on. -/
structure Points (s : Cpu) (base : Reg) (a n : Nat) : Prop where
  address : (s.reg base).toNat = a
  positive : 0 < a
  fits : a + n ≤ 2 ^ 64
  owned : Owned s.mem a n

section Accesses
variable {s t : Cpu} {base : Reg} {a n d size : Nat} {rest : List Instr}

theorem Points.congr (h : Points s base a n) (reg : t.reg base = s.reg base)
    (blocks : t.mem.blocks = s.mem.blocks) : Points t base a n where
  address := by rw [reg, h.address]
  positive := h.positive
  fits := h.fits
  owned := by
    have owned := h.owned
    unfold Owned at owned ⊢
    rwa [blocks]

theorem Points.setReg (h : Points s base a n) {r : Reg} (v : Word) (other : base ≠ r) :
    Points (s.setReg r v) base a n :=
  h.congr (setReg_other s v other) rfl

theorem Points.withBytes (h : Points s base a n) (byte : Nat → UInt8) :
    Points (s.withBytes byte) base a n :=
  h.congr rfl rfl

theorem Points.field (h : Points s base a n) (positive : 0 < size) (inside : d + size ≤ n) :
    (s.address ⟨d, base⟩).toNat = a + d := by
  have fits := h.fits
  have here := h.address
  simp only [Cpu.address, BitVec.toNat_add, BitVec.toNat_ofNat, here]
  omega

theorem Points.store (h : Points s base a n) (positive : 0 < size) (inside : d + size ≤ n)
    (v : Nat) : ByteMemory.store s.mem size (s.address ⟨d, base⟩).toNat v =
      .ok { s.mem with byte := put s.mem.byte (a + d) (encode size v) } := by
  rw [h.field positive inside]
  have := h.positive
  exact store_ok (by omega) (h.owned.inner (Nat.le_add_right _ _) (by omega))

theorem Points.load (h : Points s base a n) (positive : 0 < size) (inside : d + size ≤ n) :
    ByteMemory.load s.mem size (s.address ⟨d, base⟩).toNat =
      .ok (wordAt s.mem.byte size (a + d)) := by
  rw [h.field positive inside]
  have := h.positive
  exact load_ok (by omega) (h.owned.inner (Nat.le_add_right _ _) (by omega))

theorem run_cons {i : Instr} (taken : exec s i = .ok t) : run s (i :: rest) = run t rest := by
  simp only [run, Runs.run, taken]

theorem run_store (h : Points s base a n) (inside : d + 8 ≤ n) (src : Reg) :
    run s (.store src ⟨d, base⟩ :: rest) =
      run (s.withBytes (put s.mem.byte (a + d) (encode 8 (s.reg src).toNat))) rest :=
  run_cons (by simp only [exec, h.store (by decide) inside, ok_bind, Cpu.withBytes])

theorem run_load (h : Points s base a n) (inside : d + 8 ≤ n) (dst : Reg) :
    run s (.load ⟨d, base⟩ dst :: rest) =
      run (s.setReg dst (wordOf s.mem.byte (a + d))) rest :=
  run_cons (by simp only [exec, h.load (by decide) inside, ok_bind, wordOf])

theorem run_move (src dst : Reg) :
    run s (.move src dst :: rest) = run (s.setReg dst (s.reg src)) rest := run_cons rfl

theorem run_lea (src : Operand) (dst : Reg) :
    run s (.lea src dst :: rest) = run (s.setReg dst (s.address src)) rest := run_cons rfl

theorem run_fnstcw (h : Points s base a n) (inside : d + 2 ≤ n) :
    run s (.fnstcw ⟨d, base⟩ :: rest) =
      run (s.withBytes (put s.mem.byte (a + d) (encode 2 s.fpucw.toNat))) rest :=
  run_cons (by simp only [exec, h.store (by decide) inside, ok_bind, Cpu.withBytes])

theorem run_stmxcsr (h : Points s base a n) (inside : d + 4 ≤ n) :
    run s (.stmxcsr ⟨d, base⟩ :: rest) =
      run (s.withBytes (put s.mem.byte (a + d) (encode 4 s.mxcsr.toNat))) rest :=
  run_cons (by simp only [exec, h.store (by decide) inside, ok_bind, Cpu.withBytes])

theorem run_fldcw (h : Points s base a n) (inside : d + 2 ≤ n) :
    run s (.fldcw ⟨d, base⟩ :: rest) =
      run { s with fpucw := BitVec.ofNat 16 (wordAt s.mem.byte 2 (a + d)) } rest :=
  run_cons (by simp only [exec, h.load (by decide) inside, ok_bind])

theorem run_ldmxcsr (h : Points s base a n) (inside : d + 4 ≤ n) :
    run s (.ldmxcsr ⟨d, base⟩ :: rest) =
      run { s with mxcsr := BitVec.ofNat 32 (wordAt s.mem.byte 4 (a + d)) } rest :=
  run_cons (by simp only [exec, h.load (by decide) inside, ok_bind])

/-- The word goes to the eight bytes below the top of the stack. -/
theorem push_spec {v top : Word} (here : s.reg .rsp = top) (low : 8 < top.toNat)
    (owned : Owned s.mem (top.toNat - 8) 8) :
    s.push v = .ok ((s.setReg .rsp (top - 8)).withBytes
      (put s.mem.byte (top.toNat - 8) (encode 8 v.toNat))) := by
  have address : (top - 8).toNat = top.toNat - 8 := by bv_omega
  simp only [Cpu.push, here, address, store_ok (by omega : top.toNat - 8 ≠ 0) owned, ok_bind]
  rfl

theorem run_xorl_self (r : Reg) : run s (.xorl r r :: rest) = run (s.setReg r 0) rest := by
  apply run_cons
  simp only [exec, BitVec.xor_self]
  rfl

/-- `ret`, at the end of the code. -/
theorem run_ret (h : Points s .rsp a 8) : run s [.ret] =
    .ok ((s.setReg .rsp (s.reg .rsp + 8)).setRip (wordOf s.mem.byte a)) := by
  have here : ByteMemory.load s.mem 8 (s.reg .rsp).toNat = .ok (wordAt s.mem.byte 8 a) := by
    rw [h.address]
    exact load_ok (Nat.ne_of_gt h.positive) h.owned
  have taken : exec s .ret =
      .ok ((s.setReg .rsp (s.reg .rsp + 8)).setRip (wordOf s.mem.byte a)) := by
    simp only [exec, here, ok_bind, wordOf]
  exact run_cons taken

end Accesses

/-! ## Saving and fetching several registers -/

/-- `movq` of each register to its place. -/
def stores (base : Reg) (places : List (Reg × Nat)) : List Instr :=
  places.map fun p => .store p.1 ⟨p.2, base⟩

/-- `movq` of each place to its register. -/
def loads (base : Reg) (places : List (Reg × Nat)) : List Instr :=
  places.map fun p => .load ⟨p.2, base⟩ p.1

def savedField (reg : Reg → Word) (p : Reg × Nat) : Field := ⟨p.2, 8, (reg p.1).toNat⟩

/-- The registers after the loads. -/
def fetched (byte : Nat → UInt8) (a : Nat) : List (Reg × Nat) → (Reg → Word) → Reg → Word
  | [], reg => reg
  | p :: rest, reg => fetched byte a rest (Function.update reg p.1 (wordOf byte (a + p.2)))

section Several
variable {base : Reg} {a n : Nat} {rest : List Instr} {places : List (Reg × Nat)}

theorem run_stores {s : Cpu} (h : Points s base a n) (inside : ∀ p ∈ places, p.2 + 8 ≤ n) :
    run s (stores base places ++ rest) =
      run (s.withBytes (putFields s.mem.byte a (places.map (savedField s.reg)))) rest := by
  induction places generalizing s with
  | nil => rfl
  | cons p more ih =>
      have here := inside p List.mem_cons_self
      rw [stores, List.map_cons, List.cons_append, run_store h here]
      exact ih (h.withBytes _) fun q mem => inside q (List.mem_cons_of_mem _ mem)

theorem run_loads {s : Cpu} (h : Points s base a n) (inside : ∀ p ∈ places, p.2 + 8 ≤ n)
    (kept : base ∉ places.map Prod.fst) :
    run s (loads base places ++ rest) =
      run { s with reg := fetched s.mem.byte a places s.reg } rest := by
  induction places generalizing s with
  | nil => rfl
  | cons p more ih =>
      have here := inside p List.mem_cons_self
      have other := List.ne_of_not_mem_cons kept
      rw [loads, List.map_cons, List.cons_append, run_load h here]
      exact ih (h.setReg _ other) (fun q mem => inside q (List.mem_cons_of_mem _ mem))
        (List.not_mem_of_not_mem_cons kept)

theorem fetched_other {byte : Nat → UInt8} {reg : Reg → Word} {r : Reg}
    (other : r ∉ places.map Prod.fst) : fetched byte a places reg r = reg r := by
  induction places generalizing reg with
  | nil => rfl
  | cons p more ih =>
      rw [fetched, ih (List.not_mem_of_not_mem_cons other),
        Function.update_of_ne (List.ne_of_not_mem_cons other)]

theorem fetched_mem {byte : Nat → UInt8} {reg : Reg → Word} (distinct : (places.map Prod.fst).Nodup)
    {p : Reg × Nat} (among : p ∈ places) :
    fetched byte a places reg p.1 = wordOf byte (a + p.2) := by
  induction places generalizing reg with
  | nil => cases among
  | cons q more ih =>
      obtain ⟨once, later⟩ := List.nodup_cons.mp distinct
      rw [fetched]
      rcases List.mem_cons.mp among with rfl | among
      · rw [fetched_other once, Function.update_self]
      · exact ih later among

end Several

end Colinlib.Theory.Amd64
