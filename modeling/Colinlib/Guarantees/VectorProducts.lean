import Colinlib.Source.VecBytes
import Colinlib.Theory.Runs

/-!
# Sizes and offsets of vectors

Where no capacity comes to `2^32` bytes, every product of a count and the item size is the
mathematical one, and the allocation has room for as many items as the capacity says.
Otherwise `realloc` is asked for too little, and no check notices.
-/
namespace Colinlib.Guarantees.VectorProducts
open Colinlib.Theory.CMemory Colinlib.Theory.Runs
open Colinlib.Source.Vec (initCap fromEnd)
open Colinlib.Source.VecBytes

/-- The capacities and sizes are nonnegative `int` values. -/
inductive Move where
  | push (index : Int) (data : Nat → Option UInt8)
  | growcap (cap : Fin (2 ^ 31))
  | resize (size : Fin (2 ^ 31))
  | get (index : Int)
  | getPtr (index : Int)
  | set (index : Int) (data : Nat → Option UInt8)
  | del (index : Int) (wanted : Bool)
  | move (from' to' count : Nat)
  | swap (idx1 idx2 : Int)
  | clear

/-- Callers of `covec_move` stay within the capacity. -/
def step (mul : Product) (vec : Covec) : Move → Except (Halt Fault) Covec
  | .push index data => lift do return (← covecPush mul vec index data).2
  | .growcap cap => lift (covecGrowcap mul vec cap)
  | .resize size => lift (covecResize mul vec size)
  | .get index => lift do
      let _ ← covecGet mul vec index
      return vec
  | .getPtr index => lift do
      let _ ← covecGetPtr mul vec index
      return vec
  | .set index data => lift do return (← covecSet mul vec index data).2
  | .del index wanted => lift do return (← covecDel mul vec index wanted).2
  | .move from' to' count =>
    if from' + count ≤ vec.cap ∧ to' + count ≤ vec.cap then lift (covecMove mul vec from' to' count)
    else .error .contract
  | .swap idx1 idx2 => lift (covecSwap mul vec idx1 idx2)
  | .clear => .ok (covecClear vec)

/-- All products of a run are the mathematical ones, and each of the `cap` items lies inside
the allocation. -/
def Exact (itemsize : UInt16) (moves : List Move) : Prop :=
  run (step mulExact) (covecNew itemsize) moves = run (step mul32) (covecNew itemsize) moves ∧
    Outcome (· = .contract) Sound (run (step mul32) (covecNew itemsize) moves)

/-- No step asks for a capacity of `2^32` bytes or more, and a push that has to grow finds a
capacity that can be doubled. -/
def Meets (vec : Covec) : Move → Prop
  | .push index _ =>
    let index := fromEnd vec.size index
    index < 0 ∨ index > vec.size ∨ vec.size + 1 < vec.cap ∨
      (vec.cap * 2 ≤ intMax ∧ max initCap (vec.cap * 2) * vec.itemsize < 2 ^ 32)
  | .growcap n | .resize n => n ≤ vec.cap ∨ n * vec.itemsize < 2 ^ 32
  | _ => True

/-! ## A step -/

variable {vec : Covec}

theorem settled_lift {β : Type} {x : Product → Except Fault β} {Q : β → Prop} (h : Settled x Q) :
    lift (x mulExact) = lift (x mul32) ∧ Outcome (· = Halt.contract) Q (lift (x mul32)) := by
  obtain ⟨b, hb, same⟩ := h
  rw [same mulExact mulExact_right, same mul32 mul32_right]
  exact ⟨rfl, hb⟩

/-- Where the condition is met, all products of a step are the mathematical ones. -/
theorem step_exact (h : Sound vec) {move : Move} (meets : Meets vec move) :
    step mulExact vec move = step mul32 vec move ∧
      Outcome (· = .contract) Sound (step mul32 vec move) := by
  cases move with
  | push index data =>
      exact settled_lift (.bind (covecPush_settled h index data meets) fun _ sound => .pure sound)
  | growcap cap =>
      have int : (cap : Nat) ≤ intMax := Nat.le_of_lt_succ cap.isLt
      exact settled_lift ((covecGrowcap_settled h int meets).mono fun _ grown => grown.1)
  | resize size =>
      exact settled_lift (covecResize_settled h (Nat.le_of_lt_succ size.isLt) meets)
  | get index => exact settled_lift (.bind (covecGet_settled h index) fun _ _ => .pure h)
  | getPtr index => exact settled_lift (.bind (covecGetPtr_settled h index) fun _ _ => .pure h)
  | set index data =>
      exact settled_lift (.bind (covecSet_settled h index data) fun _ sound => .pure sound)
  | del index wanted =>
      exact settled_lift (.bind (covecDel_settled h index wanted) fun _ sound => .pure sound)
  | move from' to' count =>
      simp only [step]
      split
      · next within =>
        exact settled_lift ((covecMove_settled h within.1 within.2).mono fun _ moved => moved.1)
      · exact ⟨rfl, rfl⟩
  | swap idx1 idx2 => exact settled_lift (covecSwap_settled h idx1 idx2)
  | clear => exact ⟨rfl, ⟨(Nat.zero_mul _).symm, Nat.le_refl 0, by simp [covecClear], Nat.zero_le _⟩⟩

theorem checkAndGrow_stops (full : ¬ vec.size + 1 < vec.cap)
    (tight : ¬ (vec.cap * 2 ≤ intMax ∧ max initCap (vec.cap * 2) * vec.itemsize < 2 ^ 32)) :
    checkAndGrow mulExact vec = .error .intOverflow := by
  unfold checkAndGrow int32
  split
  · rw [ok_bind, if_pos (by omega)]
    split
    · next twice =>
      have wider : max initCap (vec.cap * 2) > vec.cap := by
        unfold initCap
        omega
      have wraps : ¬ max initCap (vec.cap * 2) * vec.itemsize < 2 ^ 32 := fun small =>
        tight ⟨twice, small⟩
      rw [ok_bind, covecGrowcap, if_pos wider, mulExact, if_neg wraps]
      rfl
    · rfl
  · rfl

/-- Where it is not met, there is a product that wraps. -/
theorem step_inexact (h : Sound vec) {move : Move} (violated : ¬ Meets vec move) :
    step mulExact vec move = .error (.fault .intOverflow) := by
  cases move with
  | push index data =>
      simp only [Meets, not_or] at violated
      obtain ⟨low, high, full, tight⟩ := violated
      have stops := checkAndGrow_stops full tight
      simp only [step, covecPush, if_neg (not_or.mpr ⟨low, high⟩), stops]
      rfl
  | growcap cap =>
      simp only [Meets, not_or] at violated
      simp only [step, covecGrowcap, if_pos (Nat.lt_of_not_le violated.1), mulExact,
        if_neg violated.2]
      rfl
  | resize size =>
      simp only [Meets, not_or] at violated
      have other : ¬ vec.size = size := fun same => violated.1 (same ▸ h.fits)
      simp only [step, covecResize, if_neg other, ge_iff_le, if_neg violated.1, mulExact,
        if_neg violated.2]
      rfl
  | get index => exact absurd trivial violated
  | getPtr index => exact absurd trivial violated
  | set index data => exact absurd trivial violated
  | del index wanted => exact absurd trivial violated
  | move from' to' count => exact absurd trivial violated
  | swap idx1 idx2 => exact absurd trivial violated
  | clear => exact absurd trivial violated

/-! ## Runs -/

theorem run_exact (h : Sound vec) (moves : List Move) (along : Along (step mul32) Meets vec moves) :
    run (step mulExact) vec moves = run (step mul32) vec moves ∧
      Outcome (· = .contract) Sound (run (step mul32) vec moves) := by
  induction moves generalizing vec with
  | nil => exact ⟨rfl, h⟩
  | cons move rest ih =>
      obtain ⟨same, kept⟩ := step_exact h along.1
      simp only [run, same]
      cases taken : step mul32 vec move with
      | error e =>
          rw [taken] at kept
          exact ⟨rfl, kept⟩
      | ok vec' =>
          rw [taken] at kept
          exact ih kept (along.2 vec' taken)

theorem run_along (h : Sound vec) (moves : List Move)
    (exact' : Outcome (· = .contract) Sound (run (step mulExact) vec moves)) :
    Along (step mul32) Meets vec moves := by
  induction moves generalizing vec with
  | nil => trivial
  | cons move rest ih =>
      by_cases meets : Meets vec move
      · refine ⟨meets, fun vec' taken => ?_⟩
        obtain ⟨same, kept⟩ := step_exact h meets
        rw [taken] at same kept
        simp only [run, same] at exact'
        exact ih kept exact'
      · simp only [run, step_inexact h meets] at exact'
        cases exact'

/-- **Vector byte arithmetic.** A run computes with the mathematical products, and keeps the
allocation as large as the capacity says, if and only if its steps meet the condition. -/
theorem products_exact_iff (itemsize : UInt16) (moves : List Move) :
    Exact itemsize moves ↔ Along (step mul32) Meets (covecNew itemsize) moves := by
  constructor
  · rintro ⟨same, kept⟩
    exact run_along (covecNew_sound itemsize) moves (same ▸ kept)
  · exact run_exact (covecNew_sound itemsize) moves

/-- Items of 65535 bytes: `65538` of them are 65534 bytes modulo `2^32`. -/
theorem products_exact_wraps : ¬ ∀ itemsize moves, Exact itemsize moves := by
  intro always
  obtain ⟨same, -⟩ := always 65535 [.growcap 65538]
  have stops : step mulExact (covecNew 65535) (.growcap 65538) = .error (.fault .intOverflow) :=
    step_inexact (covecNew_sound 65535) (by
      simp only [Meets, covecNew]
      decide)
  simp only [run, stops] at same
  cases grown : step mul32 (covecNew 65535) (.growcap 65538) with
  | error e =>
      cases grown
  | ok vec =>
      rw [grown] at same
      cases same

end Colinlib.Guarantees.VectorProducts
