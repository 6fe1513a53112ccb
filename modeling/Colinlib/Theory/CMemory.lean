import Mathlib.Algebra.Group.Int.Defs
import Mathlib.Algebra.Group.Nat.Defs
import Mathlib.Data.List.Basic
import Colinlib.Theory.Runs

/-!
# C memory blocks and the ways a C run stops

A block is the list of cells one allocation owns; a cell that was never stored
to is indeterminate (`none`). Loads and stores are bounds-checked and report
`Fault.outOfBounds` instead of touching a neighbouring allocation, and signed
`int` results are range-checked. Allocation itself always succeeds.
Nothing here names a particular program.
-/
namespace Colinlib.Theory.CMemory

/-- Where the C abstract machine leaves a run without a next state. The last two
are not defects of the code: the program ended, or the run was given too few
inputs to get past a call. -/
inductive Fault where
  | intOverflow | outOfBounds | nullPointer | divideByZero | badPointer | assertion
  | exited | starved
  deriving DecidableEq, Repr

@[simp] theorem ok_bind {β γ : Type} (b : β) (next : β → Except Fault γ) :
    (Except.ok b >>= next) = next b := rfl

/-- A sequence that returned did so step by step. -/
theorem bind_ok {δ β γ : Type} {x : Except δ β} {next : β → Except δ γ} {c : γ}
    (h : (x >>= next) = .ok c) : ∃ b, x = .ok b ∧ next b = .ok c := by
  cases x with
  | error f => cases h
  | ok b => exact ⟨b, rfl, h⟩

/-- The elaborator pushes what follows a conditional step into its branches. -/
theorem ite_bind {β γ : Type} (c : Prop) [Decidable c] (m : Except Fault β) (b : β)
    (next : β → Except Fault γ) :
    (if c then m >>= next else next b) = (if c then m else .ok b) >>= next := by
  split <;> rfl

def intMax : Nat := 2 ^ 31 - 1

/-- A nonnegative signed 32-bit intermediate value. -/
def int32 (n : Nat) : Except Fault Nat :=
  if n ≤ intMax then .ok n else .error .intOverflow

/-- The conversion of a length to `int` keeps its value modulo `2^32`. -/
def toInt32 (n : Nat) : Int := Int.bmod n (2 ^ 32)

theorem toInt32_of_le {n : Nat} (h : n ≤ intMax) : toInt32 n = n := by
  unfold toInt32 intMax at *
  rw [Int.bmod_eq_of_le] <;> omega

/-- Narrowing does not take a step back. -/
theorem toInt32_succ_ne (n : Nat) : toInt32 (n + 1) ≠ n := by
  intro same
  have residue : toInt32 (n + 1) % (2 ^ 32 : Nat) = ((n + 1 : Nat) : Int) % (2 ^ 32 : Nat) := by
    unfold toInt32
    exact Int.bmod_emod
  omega

/-- The sum of a nonnegative `int` and an `int`, which can leave the type upwards only. -/
def addInt32 (a : Nat) (b : Int) : Except Fault Int :=
  if a + b ≤ intMax then .ok (a + b) else .error .intOverflow

/-- An `int` as the `size_t` length of a copy: a negative one exceeds every object. -/
def copySize (len : Int) : Except Fault Nat :=
  if len < 0 then .error .outOfBounds else .ok len.toNat

@[simp] theorem copySize_natCast (n : Nat) : copySize n = .ok n := by
  rw [copySize, if_neg (by omega), Int.toNat_natCast]

/-- The remainder of nonnegative operands. -/
def remainder (a b : Nat) : Except Fault Nat :=
  if b = 0 then .error .divideByZero else .ok (a % b)

/-- Partial correctness up to overflow: the computation either stops because a
signed intermediate value is not representable, or it returns a value in `Q`.
Every other fault is excluded. -/
def UnlessOverflow {β : Type} (x : Except Fault β) (Q : β → Prop) : Prop :=
  Runs.Outcome (· = .intOverflow) Q x

namespace UnlessOverflow
variable {β γ : Type}

theorem pure {b : β} {Q : β → Prop} (h : Q b) : UnlessOverflow (.ok b) Q := h

theorem mono {x : Except Fault β} {Q R : β → Prop} (h : UnlessOverflow x Q)
    (step : ∀ b, Q b → R b) : UnlessOverflow x R := Runs.Outcome.mono h step

theorem bind {x : Except Fault β} {next : β → Except Fault γ} {Q : β → Prop} {R : γ → Prop}
    (h : UnlessOverflow x Q) (step : ∀ b, Q b → UnlessOverflow (next b) R) :
    UnlessOverflow (x >>= next) R := Runs.Outcome.bind h step

theorem of_ok {x : Except Fault β} {b : β} {Q : β → Prop} (h : UnlessOverflow x Q)
    (hx : x = .ok b) : Q b := by
  subst hx
  exact h

theorem ite {c : Prop} [Decidable c] {x y : Except Fault β} {Q : β → Prop}
    (yes : c → UnlessOverflow x Q) (no : ¬ c → UnlessOverflow y Q) :
    UnlessOverflow (if c then x else y) Q := by
  split
  · next h => exact yes h
  · next h => exact no h

theorem int32 (n : Nat) : UnlessOverflow (CMemory.int32 n) (fun m => m = n ∧ n ≤ intMax) := by
  unfold CMemory.int32
  exact ite (fun h => ⟨rfl, h⟩) (fun _ => rfl)

theorem remainder {a b : Nat} (h : 0 < b) :
    UnlessOverflow (CMemory.remainder a b) (fun r => r = a % b) := by
  unfold CMemory.remainder
  exact ite (fun h0 => absurd h0 (Nat.ne_of_gt h)) (fun _ => rfl)

end UnlessOverflow

/-- A computation that returns only where `c` holds, and stops for an unrepresentable value only
where `c` does not. -/
def Checks {β : Type} (x : Except Fault β) (c : Prop) : Prop :=
  (∀ b, x = .ok b → c) ∧ (x = .error .intOverflow → ¬ c)

namespace Checks
variable {β γ : Type} {x y : Except Fault β} {c d : Prop}

theorem pure (b : β) : Checks (.ok b) True := ⟨fun _ _ => trivial, fun h => (nomatch h)⟩

theorem fault {f : Fault} (other : f ≠ .intOverflow) (c : Prop) :
    Checks (.error f : Except Fault β) c :=
  ⟨fun _ h => (nomatch h), fun h => absurd (Except.error.inj h) other⟩

theorem congr (h : Checks x c) (same : c ↔ d) : Checks x d :=
  ⟨fun b ran => same.mp (h.1 b ran), fun stopped held => h.2 stopped (same.mpr held)⟩

theorem bind {next : β → Except Fault γ} (h : Checks x c)
    (step : ∀ b, x = .ok b → Checks (next b) d) : Checks (x >>= next) (c ∧ d) := by
  cases x with
  | error f =>
      refine ⟨fun _ ran => (nomatch ran), fun stopped both => ?_⟩
      have same : f = .intOverflow := Except.error.inj stopped
      exact h.2 (congrArg Except.error same) both.1
  | ok b =>
      have later := step b rfl
      exact ⟨fun e ran => ⟨h.1 b rfl, later.1 e ran⟩, fun stopped both => later.2 stopped both.2⟩

theorem ite {p : Prop} [Decidable p] (yes : p → Checks x c) (no : ¬ p → Checks y d) :
    Checks (if p then x else y) ((p → c) ∧ (¬ p → d)) := by
  split
  · next h =>
      refine (yes h).congr ⟨fun held => ⟨fun _ => held, fun other => absurd h other⟩, fun both => ?_⟩
      exact both.1 h
  · next h =>
      refine (no h).congr ⟨fun held => ⟨fun other => absurd other h, fun _ => held⟩, fun both => ?_⟩
      exact both.2 h

theorem int32 (n : Nat) : Checks (CMemory.int32 n) (n ≤ intMax) := by
  unfold CMemory.int32
  split
  · next h => exact (pure n).congr (iff_of_true trivial h)
  · next h => exact ⟨fun _ ran => (nomatch ran), fun _ => h⟩

theorem remainder (a b : Nat) : Checks (CMemory.remainder a b) True := by
  unfold CMemory.remainder
  split
  · exact fault (by decide) True
  · exact pure _

/-- Where other faults are excluded, the computation returns exactly where `c` holds. -/
theorem returns {Q : β → Prop} (h : Checks x c) (spec : UnlessOverflow x Q) (held : c) :
    ∃ b, x = .ok b ∧ Q b := by
  cases x with
  | error f =>
      cases spec
      exact absurd held (h.2 rfl)
  | ok b => exact ⟨b, rfl, spec⟩

end Checks

abbrev Block (α : Type) := List (Option α)

def malloc (α : Type) (n : Nat) : Block α := List.replicate n none

/-- The common prefix survives; cells past the old size are indeterminate. -/
def realloc {α : Type} (b : Block α) (n : Nat) : Block α :=
  b.take n ++ List.replicate (n - b.length) none

def slice {α : Type} (b : Block α) (off len : Nat) : List (Option α) :=
  (b.drop off).take len

def splice {α : Type} (b : Block α) (off : Nat) (cells : List (Option α)) : Block α :=
  b.take off ++ cells ++ b.drop (off + cells.length)

def load {α : Type} (b : Block α) (off len : Nat) : Except Fault (List (Option α)) :=
  if off + len ≤ b.length then .ok (slice b off len) else .error .outOfBounds

def store {α : Type} (b : Block α) (off : Nat) (cells : List (Option α)) :
    Except Fault (Block α) :=
  if off + cells.length ≤ b.length then .ok (splice b off cells) else .error .outOfBounds

section
variable {α : Type}

@[simp] theorem malloc_length (n : Nat) : (malloc α n).length = n := by simp [malloc]

@[simp] theorem realloc_length (b : Block α) (n : Nat) : (realloc b n).length = n := by
  simp only [realloc, List.length_append, List.length_take, List.length_replicate]
  omega

@[simp] theorem slice_zero (b : Block α) (off : Nat) : slice b off 0 = [] := by simp [slice]

theorem slice_length (b : Block α) (off len : Nat) (h : off + len ≤ b.length) :
    (slice b off len).length = len := by
  simp only [slice, List.length_take, List.length_drop]
  omega

theorem slice_getElem? (b : Block α) (off len i : Nat) :
    (slice b off len)[i]? = if i < len then b[off + i]? else none := by
  simp only [slice, List.getElem?_take, List.getElem?_drop]

theorem splice_length (b : Block α) (off : Nat) (cells : List (Option α))
    (h : off + cells.length ≤ b.length) : (splice b off cells).length = b.length := by
  simp only [splice, List.length_append, List.length_take, List.length_drop]
  omega

theorem splice_getElem? (b : Block α) (off i : Nat) (cells : List (Option α))
    (h : off + cells.length ≤ b.length) :
    (splice b off cells)[i]? =
      if off ≤ i ∧ i < off + cells.length then cells[i - off]? else b[i]? := by
  have hlen : (b.take off).length = off := by simp; omega
  unfold splice
  by_cases hlo : i < off
  · rw [List.append_assoc, List.getElem?_append_left (by omega), List.getElem?_take,
      if_pos hlo, if_neg (by omega)]
  · by_cases hhi : i < off + cells.length
    · rw [if_pos ⟨by omega, hhi⟩, List.getElem?_append_left (by simp; omega),
        List.getElem?_append_right (by omega), hlen]
    · rw [if_neg (by omega), List.getElem?_append_right (by simp; omega), List.getElem?_drop]
      congr 1
      simp only [List.length_append, hlen]
      omega

/-- Adjacent slices join. -/
theorem slice_append (b : Block α) (off m n : Nat) :
    slice b off m ++ slice b (off + m) n = slice b off (m + n) := by
  simp only [slice]
  rw [← List.drop_drop, ← List.take_add]

theorem slice_take (b : Block α) (off m n : Nat) (h : m ≤ n) :
    (slice b off n).take m = slice b off m := by
  simp [slice, List.take_take, Nat.min_eq_left h]

theorem slice_drop (b : Block α) (off m n : Nat) :
    (slice b off n).drop m = slice b (off + m) (n - m) := by
  simp [slice, List.drop_take, List.drop_drop]

theorem slice_splice_same (b : Block α) (off : Nat) (cells : List (Option α))
    (h : off + cells.length ≤ b.length) : slice (splice b off cells) off cells.length = cells := by
  apply List.ext_getElem?
  intro i
  rw [slice_getElem?, splice_getElem? b off (off + i) cells h]
  by_cases hi : i < cells.length
  · rw [if_pos hi, if_pos (by omega)]
    congr 1
    omega
  · rw [if_neg hi, List.getElem?_eq_none (by omega)]

/-- A store leaves every slice that it does not meet as it was. -/
theorem slice_splice_frame (b : Block α) (off at' len : Nat) (cells : List (Option α))
    (h : off + cells.length ≤ b.length)
    (apart : at' + len ≤ off ∨ off + cells.length ≤ at') :
    slice (splice b off cells) at' len = slice b at' len := by
  apply List.ext_getElem?
  intro i
  rw [slice_getElem?, slice_getElem?, splice_getElem? b off (at' + i) cells h]
  by_cases hi : i < len
  · rw [if_pos hi, if_pos hi, if_neg (by omega)]
  · rw [if_neg hi, if_neg hi]

theorem slice_realloc (b : Block α) (n off len : Nat) (hb : off + len ≤ b.length)
    (hn : off + len ≤ n) : slice (realloc b n) off len = slice b off len := by
  apply List.ext_getElem?
  intro i
  rw [slice_getElem?, slice_getElem?]
  by_cases hi : i < len
  · rw [if_pos hi, if_pos hi, realloc, List.getElem?_append_left (by simp; omega),
      List.getElem?_take, if_pos (by omega)]
  · rw [if_neg hi, if_neg hi]

theorem Checks.load (b : Block α) (off len : Nat) : Checks (CMemory.load b off len) True := by
  unfold CMemory.load
  split
  · exact .pure _
  · exact .fault (by decide) True

theorem Checks.store (b : Block α) (off : Nat) (cells : List (Option α)) :
    Checks (CMemory.store b off cells) True := by
  unfold CMemory.store
  split
  · exact .pure _
  · exact .fault (by decide) True

theorem UnlessOverflow.load {b : Block α} {off len : Nat} (h : off + len ≤ b.length) :
    UnlessOverflow (CMemory.load b off len) (fun cells => cells = slice b off len) := by
  unfold CMemory.load
  exact UnlessOverflow.ite (fun _ => rfl) (fun hn => absurd h hn)

theorem UnlessOverflow.store {b : Block α} {off : Nat} {cells : List (Option α)}
    (h : off + cells.length ≤ b.length) :
    UnlessOverflow (CMemory.store b off cells) (fun b' => b' = splice b off cells) := by
  unfold CMemory.store
  exact UnlessOverflow.ite (fun _ => rfl) (fun hn => absurd h hn)

end

end Colinlib.Theory.CMemory
