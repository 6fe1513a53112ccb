import Colinlib.Theory.Amd64

/-!
# Contexts of `co_ctx.c` and `coctx_swap.S`

`coctx_t` is sixteen words `regs`, then `ss_size` and `ss_sp`. `coctx_make` writes the
context of a function that has not started. `coctx_swap(octx, ctx)` saves the running code
in `octx` and continues the code saved in `ctx`. In `regs[14]` the assembly keeps the control
words of the x87 unit and, four bytes on, of the SSE unit.
-/
namespace Colinlib.Source.CoCtx
open Colinlib.Theory.CMemory Colinlib.Theory.ByteMemory Colinlib.Theory.Amd64

/-- `sizeof(ctx->regs)`. -/
def regsSize : Nat := 128

/-- `sizeof(coctx_t)`. -/
def coctxSize : Nat := 144

/-- `coctx_make`, with the context at `ctx`. -/
def coctxMake (mem : Memory) (ctx : Nat) (fn : Word) (p1 p2 : BitVec 32) :
    Except Fault Memory := do
  let ssSp ← load mem 8 (ctx + 136)
  let ssSize ← load mem 8 (ctx + 128)
  let sp : Word := BitVec.ofNat 64 ssSp + BitVec.ofNat 64 ssSize
  let sp := sp &&& (-16 : Word)
  let mem ← write mem ctx (List.replicate regsSize 0)
  let mem ← store mem 8 (ctx + 8 * 6) p1.toNat
  let mem ← store mem 8 (ctx + 8 * 7) p2.toNat
  let mem ← store mem 8 (ctx + 8 * 12) fn.toNat
  store mem 8 (ctx + 8 * 13) (sp - 8).toNat

/-- `coctx_swap`, instruction by instruction. -/
def coctxSwap : List Instr :=
  [.store .rbx ⟨0, .rdi⟩,
    .store .rbp ⟨8, .rdi⟩,
    .store .r12 ⟨16, .rdi⟩,
    .store .r13 ⟨24, .rdi⟩,
    .store .r14 ⟨32, .rdi⟩,
    .store .r15 ⟨40, .rdi⟩,
    .store .rdi ⟨48, .rdi⟩,
    .store .rsi ⟨56, .rdi⟩,
    .store .rdx ⟨64, .rdi⟩,
    .store .rcx ⟨72, .rdi⟩,
    .store .r8 ⟨80, .rdi⟩,
    .store .r9 ⟨88, .rdi⟩,
    .load ⟨0, .rsp⟩ .rcx,
    .store .rcx ⟨96, .rdi⟩,
    .lea ⟨8, .rsp⟩ .rcx,
    .store .rcx ⟨104, .rdi⟩,
    .fnstcw ⟨112, .rdi⟩,
    .stmxcsr ⟨116, .rdi⟩,
    .move .rsi .rax,
    .load ⟨0, .rax⟩ .rbx,
    .load ⟨8, .rax⟩ .rbp,
    .load ⟨16, .rax⟩ .r12,
    .load ⟨24, .rax⟩ .r13,
    .load ⟨32, .rax⟩ .r14,
    .load ⟨40, .rax⟩ .r15,
    .load ⟨48, .rax⟩ .rdi,
    .load ⟨56, .rax⟩ .rsi,
    .load ⟨64, .rax⟩ .rdx,
    .load ⟨80, .rax⟩ .r8,
    .load ⟨88, .rax⟩ .r9,
    .fldcw ⟨112, .rax⟩,
    .ldmxcsr ⟨116, .rax⟩,
    .load ⟨104, .rax⟩ .rsp,
    .load ⟨96, .rax⟩ .rcx,
    .push .rcx,
    .load ⟨72, .rax⟩ .rcx,
    .xorl .rax .rax,
    .ret]

/-! ## What a context says -/

/-- Where the code goes on, and with what in its registers. -/
structure Context where
  reg : Reg → Word
  rip : Word
  rsp : Word
  fpucw : BitVec 16
  mxcsr : BitVec 32

/-- The registers that have a place of their own. `rax`, `r10` and `r11` have none. -/
def places : List (Reg × Nat) :=
  [(.rbx, 0), (.rbp, 8), (.r12, 16), (.r13, 24), (.r14, 32), (.r15, 40), (.rdi, 48), (.rsi, 56),
    (.rdx, 64), (.rcx, 72), (.r8, 80), (.r9, 88)]

def Context.fields (c : Context) : List Field :=
  places.map (savedField c.reg) ++
    [⟨96, 8, c.rip.toNat⟩, ⟨104, 8, c.rsp.toNat⟩, ⟨112, 2, c.fpucw.toNat⟩,
      ⟨116, 4, c.mxcsr.toNat⟩]

/-- The context at `a` is `c`. -/
structure Holds (byte : Nat → UInt8) (a : Nat) (c : Context) : Prop where
  reg : ∀ p ∈ places, wordAt byte 8 (a + p.2) = (c.reg p.1).toNat
  rip : wordAt byte 8 (a + 96) = c.rip.toNat
  rsp : wordAt byte 8 (a + 104) = c.rsp.toNat
  fpucw : wordAt byte 2 (a + 112) = c.fpucw.toNat
  mxcsr : wordAt byte 4 (a + 116) = c.mxcsr.toNat

/-- What a call of `coctx_swap` saves: the code goes on behind the call. -/
def ofCaller (s : Cpu) : Context where
  reg := s.reg
  rip := wordOf s.mem.byte (s.reg .rsp).toNat
  rsp := s.reg .rsp + 8
  fpucw := s.fpucw
  mxcsr := s.mxcsr

/-- The processor when `c` goes on. What has no place in a context is left over from the code
that ran before, except that `rax` is the result 0. -/
def Context.enter (c : Context) (s : Cpu) (byte : Nat → UInt8) : Cpu where
  reg r :=
    if r = .rsp then c.rsp
    else if r = .rax then 0
    else if r = .r10 ∨ r = .r11 then s.reg r
    else c.reg r
  rip := c.rip
  fpucw := c.fpucw
  mxcsr := c.mxcsr
  mem := { s.mem with byte }

@[simp] theorem enter_rsp (c : Context) (s : Cpu) (byte : Nat → UInt8) :
    (c.enter s byte).reg .rsp = c.rsp := rfl
@[simp] theorem enter_rax (c : Context) (s : Cpu) (byte : Nat → UInt8) :
    (c.enter s byte).reg .rax = 0 := rfl

theorem enter_placed (c : Context) (s : Cpu) (byte : Nat → UInt8) {r : Reg}
    (place : r ∈ places.map Prod.fst) : (c.enter s byte).reg r = c.reg r := by
  cases r with
  | rax | rsp | r10 | r11 => exact absurd place (by decide)
  | _ => rfl

/-- Only the registers without a place matter of the code that ran before. -/
theorem enter_setReg (c : Context) (s : Cpu) {r : Reg} (v : Word) (byte : Nat → UInt8)
    (placed : r ≠ .r10 ∧ r ≠ .r11) : c.enter (s.setReg r v) byte = c.enter s byte := by
  have same : (c.enter (s.setReg r v) byte).reg = (c.enter s byte).reg := by
    funext r'
    simp only [Context.enter]
    split
    · rfl
    · split
      · rfl
      · split
        · next left =>
          refine setReg_other s v ?_
          rintro rfl
          exact left.elim placed.1 placed.2
        · rfl
  exact congrArg (fun reg => { c.enter s byte with reg }) same

/-- The context of a function that has not started: its two arguments, and both units of
floating point with a control word of zero. -/
def started (sp fn : Word) (p1 p2 : BitVec 32) : Context where
  reg r := if r = .rdi then p1.setWidth 64 else if r = .rsi then p2.setWidth 64 else 0
  rip := fn
  rsp := sp - 8
  fpucw := 0
  mxcsr := 0

theorem started_rdi (sp fn : Word) (p1 p2 : BitVec 32) :
    (started sp fn p1 p2).reg .rdi = p1.setWidth 64 := rfl
theorem started_rsi (sp fn : Word) (p1 p2 : BitVec 32) :
    (started sp fn p1 p2).reg .rsi = p2.setWidth 64 := rfl

section Records
theorem word_fits (v : Word) : v.toNat < 256 ^ 8 := v.isLt
theorem fpucw_fits (v : BitVec 16) : v.toNat < 256 ^ 2 := v.isLt
theorem mxcsr_fits (v : BitVec 32) : v.toNat < 256 ^ 4 := v.isLt

variable {byte byte' : Nat → UInt8} {a : Nat} {c : Context}

theorem Holds.congr (h : Holds byte a c) (same : ∀ x, a ≤ x → x < a + 120 → byte' x = byte x) :
    Holds byte' a c := by
  have word {off size : Nat} (inside : off + size ≤ 120) :
      wordAt byte' size (a + off) = wordAt byte size (a + off) :=
    wordAt_congr fun x low high => same x (by omega) (by omega)
  have below : ∀ p ∈ places, p.2 + 8 ≤ 120 := by decide
  exact {
    reg := fun p among => (word (below p among)).trans (h.reg p among)
    rip := (word (by omega)).trans h.rip
    rsp := (word (by omega)).trans h.rsp
    fpucw := (word (by omega)).trans h.fpucw
    mxcsr := (word (by omega)).trans h.mxcsr }

theorem fields_within (c : Context) : ∀ f ∈ c.fields, f.Within 120 := by
  intro f among
  rcases List.mem_append.mp among with saved | own
  · obtain ⟨p, place, rfl⟩ := List.mem_map.mp saved
    have below : ∀ p ∈ places, p.2 + 8 ≤ 120 := by decide
    exact below p place
  · simp only [List.mem_cons, List.not_mem_nil, or_false] at own
    rcases own with rfl | rfl | rfl | rfl <;> simp [Field.Within]

theorem fields_beside (c : Context) : c.fields.Pairwise Field.Beside := by
  simp [Context.fields, places, savedField, Field.Beside, Apart]

/-- A context that was stored field by field reads back. -/
theorem holds_fields (byte : Nat → UInt8) (a : Nat) (c : Context) :
    Holds (putFields byte a c.fields) a c := by
  have read {f : Field} (among : f ∈ c.fields) (fits : f.Fits) :
      wordAt (putFields byte a c.fields) f.size (a + f.off) = f.value :=
    wordAt_putFields (fields_beside c) among fits
  have own {f : Field} (among : f ∈ [⟨96, 8, c.rip.toNat⟩, ⟨104, 8, c.rsp.toNat⟩,
      ⟨112, 2, c.fpucw.toNat⟩, ⟨116, 4, c.mxcsr.toNat⟩]) : f ∈ c.fields :=
    List.mem_append_right _ among
  have reg (p : Reg × Nat) (place : p ∈ places) :=
    read (List.mem_append_left _ (List.mem_map_of_mem place)) (word_fits (c.reg p.1))
  have rip := read (own (.head _)) (word_fits c.rip)
  have rsp := read (own (.tail _ (.head _))) (word_fits c.rsp)
  have fpucw := read (own (.tail _ (.tail _ (.head _)))) (fpucw_fits c.fpucw)
  have mxcsr := read (own (.tail _ (.tail _ (.tail _ (.head _))))) (mxcsr_fits c.mxcsr)
  exact ⟨reg, rip, rsp, fpucw, mxcsr⟩

theorem coctxMake_spec {mem : Memory} {ctx : Nat} {stack size : Word} (fn : Word) (p1 p2 : BitVec 32)
    (positive : 0 < ctx) (owned : Owned mem ctx coctxSize)
    (base : wordAt mem.byte 8 (ctx + 136) = stack.toNat)
    (length : wordAt mem.byte 8 (ctx + 128) = size.toNat) :
    ∃ byte, coctxMake mem ctx fn p1 p2 = .ok { mem with byte } ∧
      Holds byte ctx (started ((stack + size) &&& (-16 : Word)) fn p1 p2) ∧
      ∀ x, x < ctx ∨ ctx + regsSize ≤ x → byte x = mem.byte x := by
  obtain ⟨sp, is⟩ : ∃ sp : Word, sp = (stack + size) &&& (-16 : Word) := ⟨_, rfl⟩
  obtain ⟨zeroed, zeros⟩ : ∃ byte, byte = put mem.byte ctx (List.replicate regsSize 0) := ⟨_, rfl⟩
  let fields : List Field := [⟨48, 8, p1.toNat⟩, ⟨56, 8, p2.toNat⟩, ⟨96, 8, fn.toNat⟩,
    ⟨104, 8, (sp - 8).toNat⟩]
  have inner {off n : Nat} (inside : off + n ≤ coctxSize) : Owned mem (ctx + off) n :=
    owned.inner (Nat.le_add_right _ _) (by omega)
  have place (off : Nat) (inside : off + 8 ≤ coctxSize) (byte : Nat → UInt8) (v : Nat) :
      store { mem with byte } 8 (ctx + off) v =
        .ok { mem with byte := put byte (ctx + off) (encode 8 v) } :=
    store_ok (by omega) (inner inside)
  have zero : write mem ctx (List.replicate regsSize 0) = .ok { mem with byte := zeroed } := by
    have room : Owned mem ctx (List.replicate regsSize (0 : UInt8)).length := by
      rw [List.length_replicate]
      exact owned.inner (Nat.le_refl _) (by unfold coctxSize regsSize; omega)
    rw [write_ok (by omega) room, zeros]
  refine ⟨putFields zeroed ctx fields, ?_, ?_, ?_⟩
  · unfold coctxMake
    rw [load_ok (by omega) (inner (by decide)), load_ok (by omega) (inner (by decide)), base, length]
    simp only [ok_bind, BitVec.ofNat_toNat, BitVec.setWidth_eq, ← is, zero,
      place (8 * 6) (by decide), place (8 * 7) (by decide), place (8 * 12) (by decide),
      place (8 * 13) (by decide)]
    rfl
  · rw [← is]
    have beside : fields.Pairwise Field.Beside := by simp [fields, Field.Beside, Apart]
    have read {f : Field} (among : f ∈ fields) (fits : f.Fits) :
        wordAt (putFields zeroed ctx fields) f.size (ctx + f.off) = f.value :=
      wordAt_putFields beside among fits
    have zero_at {off n : Nat} (inside : off + n ≤ regsSize)
        (clear : ∀ q ∈ [(48, 8), (56, 8), (96, 8), (104, 8)], Apart q.1 q.2 off n) :
        wordAt (putFields zeroed ctx fields) n (ctx + off) = 0 := by
      rw [wordAt_putFields_other fun g among =>
        clear _ (List.mem_map_of_mem (f := fun g : Field => (g.off, g.size)) among), zeros]
      exact wordAt_zeros _ _ inside
    have wide (v : BitVec 32) : (v.setWidth 64).toNat = v.toNat :=
      BitVec.toNat_setWidth_of_le (by decide)
    have narrow (v : BitVec 32) : v.toNat < 256 ^ 8 := Nat.lt_trans v.isLt (by decide)
    have first := read (.head _) (narrow p1)
    have second := read (.tail _ (.head _)) (narrow p2)
    have rip := read (.tail _ (.tail _ (.head _))) (word_fits fn)
    have rsp := read (.tail _ (.tail _ (.tail _ (.head _)))) (word_fits (sp - 8))
    refine ⟨?_, rip, rsp, zero_at (by decide) (by decide), zero_at (by decide) (by decide)⟩
    intro p place
    by_cases rdi : p.1 = .rdi
    · have at_rdi : ∀ p ∈ places, p.1 = .rdi → p.2 = 48 := by decide
      rw [at_rdi p place rdi, rdi]
      exact first.trans (wide p1).symm
    · by_cases rsi : p.1 = .rsi
      · have at_rsi : ∀ p ∈ places, p.1 = .rsi → p.2 = 56 := by decide
        rw [at_rsi p place rsi, rsi]
        exact second.trans (wide p2).symm
      · have clear : ∀ p ∈ places, p.1 ≠ .rdi → p.1 ≠ .rsi → p.2 + 8 ≤ regsSize ∧
            ∀ q ∈ [(48, 8), (56, 8), (96, 8), (104, 8)], Apart q.1 q.2 p.2 8 := by decide
        obtain ⟨inside, clear⟩ := clear p place rdi rsi
        simp only [started, if_neg rdi, if_neg rsi]
        exact zero_at inside clear
  · intro x outside
    have within : ∀ f ∈ fields, f.Within regsSize := by simp [fields, Field.Within, regsSize]
    rw [putFields_outside within outside, zeros]
    exact put_outside _ _ _ _ (by rwa [List.length_replicate])

end Records

/-! ## What the code does -/

def saveCode : List Instr :=
  stores .rdi places ++
    [.load ⟨0, .rsp⟩ .rcx, .store .rcx ⟨96, .rdi⟩, .lea ⟨8, .rsp⟩ .rcx, .store .rcx ⟨104, .rdi⟩,
      .fnstcw ⟨112, .rdi⟩, .stmxcsr ⟨116, .rdi⟩]

/-- `rcx` is loaded last, because the return address passes through it. -/
def loadedPlaces : List (Reg × Nat) := places.eraseP (·.1 = .rcx)

/-- Over to the other stack, and with the address that is pushed there into the other code. -/
def leaveCode : List Instr :=
  [.load ⟨104, .rax⟩ .rsp, .load ⟨96, .rax⟩ .rcx, .push .rcx, .load ⟨72, .rax⟩ .rcx,
    .xorl .rax .rax, .ret]

def restoreCode : List Instr :=
  .move .rsi .rax ::
    (loads .rax loadedPlaces ++ (.fldcw ⟨112, .rax⟩ :: .ldmxcsr ⟨116, .rax⟩ :: leaveCode))

theorem coctxSwap_eq : coctxSwap = saveCode ++ restoreCode := rfl

section Swap
variable {s : Cpu} {a b sp : Nat} {c : Context} {rest : List Instr}

theorem putFields_append (byte : Nat → UInt8) (a : Nat) (fs gs : List Field) :
    putFields byte a (fs ++ gs) = putFields (putFields byte a fs) a gs := by
  induction fs generalizing byte with
  | nil => rfl
  | cons f fs ih => exact ih _

theorem run_saveCode (out : Points s .rdi a 120) (stack : Points s .rsp sp 8)
    (aside : Apart a 120 sp 8) : run s (saveCode ++ rest) =
      run ((s.setReg .rcx (s.reg .rsp + 8)).withBytes
        (putFields s.mem.byte a (ofCaller s).fields)) rest := by
  have below : ∀ p ∈ places, p.2 + 8 ≤ 120 := by decide
  have within : ∀ f ∈ places.map (savedField s.reg), f.Within 120 := by
    intro f among
    obtain ⟨p, place, rfl⟩ := List.mem_map.mp among
    exact below p place
  obtain ⟨byte, is⟩ : ∃ byte, byte = putFields s.mem.byte a (places.map (savedField s.reg)) :=
    ⟨_, rfl⟩
  have return_address : wordOf byte sp = wordOf s.mem.byte (s.reg .rsp).toNat := by
    rw [stack.address, wordOf, wordOf, is, wordAt_putFields_frame within aside]
  have at_return : wordOf byte (sp + 0) = (ofCaller s).rip := return_address
  rw [saveCode, List.append_assoc, run_stores out below, ← is]
  simp only [List.cons_append, List.nil_append]
  rw [run_load (stack.withBytes _) (by omega), withBytes_byte, at_return, withBytes_setReg]
  have points (v : Word) (f : Nat → UInt8) : Points ((s.setReg .rcx v).withBytes f) .rdi a 120 :=
    (out.setReg v (by decide)).withBytes f
  have behind (v : Word) : (s.setReg .rcx v).address ⟨8, .rsp⟩ = (ofCaller s).rsp :=
    setReg_address s v (by decide)
  rw [run_store (points _ _) (by omega)]
  simp only [withBytes_byte, withBytes_again, withBytes_reg, setReg_self]
  rw [run_lea]
  simp only [withBytes_setReg, setReg_again, withBytes_address, behind]
  rw [run_store (points _ _) (by omega)]
  simp only [withBytes_byte, withBytes_again, withBytes_reg, setReg_self]
  rw [run_fnstcw (points _ _) (by omega)]
  simp only [withBytes_byte, withBytes_again, withBytes_fpucw, setReg_fpucw]
  rw [run_stmxcsr (points _ _) (by omega)]
  simp only [withBytes_byte, withBytes_again, withBytes_mxcsr, setReg_mxcsr]
  have saved : putFields s.mem.byte a (ofCaller s).fields = putFields byte a
      [⟨96, 8, (ofCaller s).rip.toNat⟩, ⟨104, 8, (ofCaller s).rsp.toNat⟩,
        ⟨112, 2, s.fpucw.toNat⟩, ⟨116, 4, s.mxcsr.toNat⟩] := by
    rw [is]
    exact putFields_append _ _ _ _
  rw [saved]
  rfl

theorem run_leaveCode (next : Points s .rax b 120) (held : Holds s.mem.byte b c)
    (room : 8 < c.rsp.toNat) (owned : Owned s.mem (c.rsp.toNat - 8) 8)
    (aside : Apart (c.rsp.toNat - 8) 8 b 120) : run s leaveCode =
      .ok (((((s.setReg .rax 0).setReg .rcx (c.reg .rcx)).setReg .rsp c.rsp).withBytes
        (put s.mem.byte (c.rsp.toNat - 8) (encode 8 c.rip.toNat))).setRip c.rip) := by
  obtain ⟨byte, is⟩ : ∃ byte,
      byte = put s.mem.byte (c.rsp.toNat - 8) (encode 8 c.rip.toNat) := ⟨_, rfl⟩
  have pushed : exec ((s.setReg .rsp c.rsp).setReg .rcx c.rip) (.push .rcx) =
      .ok (((s.setReg .rsp (c.rsp - 8)).setReg .rcx c.rip).withBytes byte) := by
    have here : ((s.setReg .rsp c.rsp).setReg .rcx c.rip).reg .rsp = c.rsp := by
      rw [setReg_other _ _ (by decide), setReg_self]
    simp only [exec, setReg_self, push_spec here room owned, setReg_mem, ← is]
    rw [setReg_comm _ _ _ (by decide), setReg_again]
  have rcx : wordOf byte (b + 72) = c.reg .rcx := by
    refine wordOf_eq (.trans ?_ (held.reg (.rcx, 72) (by decide)))
    rw [is]
    apply wordAt_put_frame
    rw [encode_length]
    unfold Apart at aside ⊢
    omega
  have target : wordOf byte (c.rsp.toNat - 8) = c.rip :=
    wordOf_eq (by rw [is, wordAt_put _ (word_fits c.rip)])
  have points (v v' : Word) (f : Nat → UInt8) :
      Points (((s.setReg .rsp v).setReg .rcx v').withBytes f) .rax b 120 :=
    ((next.setReg v (by decide)).setReg v' (by decide)).withBytes f
  rw [leaveCode, run_load next (by omega), wordOf_eq held.rsp,
    run_load (next.setReg _ (by decide)) (by omega), setReg_mem, wordOf_eq held.rip,
    run_cons pushed, run_load (points _ _ _) (by omega), run_xorl_self]
  have order (v v' : Word) : ((s.setReg .rsp v).setReg .rcx v').setReg .rax 0 =
      ((s.setReg .rax 0).setReg .rcx v').setReg .rsp v := by
    rw [setReg_comm s v v' (by decide), setReg_comm (s.setReg .rcx v') v 0 (by decide),
      setReg_comm s v' 0 (by decide)]
  simp only [withBytes_byte, withBytes_setReg, setReg_again, rcx, order]
  have address : (c.rsp - 8).toNat = c.rsp.toNat - 8 := by bv_omega
  have top (t : Cpu) (same : t.mem.blocks = s.mem.blocks) :
      Points ((t.setReg .rsp (c.rsp - 8)).withBytes byte) .rsp (c.rsp.toNat - 8) 8 := by
    have fits := c.rsp.isLt
    refine ⟨?_, by omega, by omega, ?_⟩
    · rw [withBytes_reg, setReg_self, address]
    · unfold Owned at owned ⊢
      rwa [← same] at owned
  rw [run_ret (top ((s.setReg .rax 0).setReg .rcx (c.reg .rcx)) rfl)]
  simp only [withBytes_byte, withBytes_reg, setReg_self, withBytes_setReg, setReg_again, target,
    BitVec.sub_add_cancel, ← is]

theorem run_restoreCode (next : Points s .rsi b 120) (held : Holds s.mem.byte b c)
    (room : 8 < c.rsp.toNat) (owned : Owned s.mem (c.rsp.toNat - 8) 8)
    (aside : Apart (c.rsp.toNat - 8) 8 b 120) : run s restoreCode =
      .ok (c.enter s (put s.mem.byte (c.rsp.toNat - 8) (encode 8 c.rip.toNat))) := by
  have below : ∀ p ∈ loadedPlaces, p.2 + 8 ≤ 120 := by decide
  have kept : Reg.rax ∉ loadedPlaces.map Prod.fst := by decide
  have rax : Points (s.setReg .rax (s.reg .rsi)) .rax b 120 :=
    ⟨by rw [setReg_self]; exact next.address, next.positive, next.fits, next.owned⟩
  obtain ⟨reg, is⟩ : ∃ reg, reg = fetched s.mem.byte b loadedPlaces
      (s.setReg .rax (s.reg .rsi)).reg := ⟨_, rfl⟩
  have at_rax : reg .rax = s.reg .rsi := by
    rw [is, fetched_other kept, setReg_self]
  have points (rip : Word) (fpucw : BitVec 16) (mxcsr : BitVec 32) :
      Points ⟨reg, rip, fpucw, mxcsr, s.mem⟩ .rax b 120 :=
    rax.congr (by rw [setReg_self]; exact at_rax) rfl
  rw [restoreCode, run_move, run_loads rax below kept]
  simp only [setReg_mem, ← is]
  rw [run_fldcw (points _ _ _) (by omega), run_ldmxcsr (points _ _ _) (by omega)]
  simp only [held.fpucw, held.mxcsr, BitVec.ofNat_toNat, BitVec.setWidth_eq]
  rw [run_leaveCode (points _ _ _) held room owned aside]
  have loaded {r : Reg} (among : r ∈ loadedPlaces.map Prod.fst) : reg r = c.reg r := by
    obtain ⟨p, place, rfl⟩ := List.mem_map.mp among
    rw [is, fetched_mem (by decide) place]
    exact wordOf_eq (held.reg p (List.mem_of_mem_eraseP place))
  have left {r : Reg} (other : r ∉ loadedPlaces.map Prod.fst) (away : r ≠ .rax) :
      reg r = s.reg r := by
    rw [is, fetched_other other, setReg_other _ _ away]
  have same : Function.update (Function.update (Function.update reg .rax 0) .rcx (c.reg .rcx))
      .rsp c.rsp = (c.enter s s.mem.byte).reg := by
    funext r
    cases r with
    | rsp | rax | rcx => rfl
    | r10 | r11 => exact left (by decide) (by decide)
    | _ => exact loaded (by decide)
  simp only [Cpu.setReg, Cpu.withBytes, Cpu.setRip, same]
  rfl

/-- **The switch.** The running code is saved at `a`, the code saved at `b` goes on. Memory
changes in the context at `a`, and in the word that the return address passes through. -/
theorem run_coctxSwap (out : Points s .rdi a 120) (next : Points s .rsi b 120)
    (apart : Apart a 120 b 120) (stack : Points s .rsp sp 8) (above : Apart a 120 sp 8)
    (held : Holds s.mem.byte b c) (room : 8 < c.rsp.toNat)
    (owned : Owned s.mem (c.rsp.toNat - 8) 8) (aside : Apart (c.rsp.toNat - 8) 8 b 120) :
    run s coctxSwap = .ok (c.enter s (put (putFields s.mem.byte a (ofCaller s).fields)
      (c.rsp.toNat - 8) (encode 8 c.rip.toNat))) := by
  obtain ⟨byte, is⟩ : ∃ byte, byte = putFields s.mem.byte a (ofCaller s).fields := ⟨_, rfl⟩
  obtain ⟨t, saved⟩ : ∃ t, t = (s.setReg .rcx (s.reg .rsp + 8)).withBytes byte := ⟨_, rfl⟩
  have held' : Holds byte b c := by
    refine held.congr fun x low high => ?_
    rw [is]
    refine putFields_outside (fields_within _) ?_
    unfold Apart at apart
    omega
  have next' : Points t .rsi b 120 := by
    rw [saved]
    exact (next.setReg _ (by decide)).withBytes byte
  rw [coctxSwap_eq, run_saveCode out stack above, ← is, ← saved,
    run_restoreCode next' (by rw [saved]; exact held') room (by rw [saved]; exact owned) aside]
  subst saved
  exact congrArg Except.ok (enter_setReg c s (s.reg .rsp + 8) _ ⟨by decide, by decide⟩)

end Swap

end Colinlib.Source.CoCtx
