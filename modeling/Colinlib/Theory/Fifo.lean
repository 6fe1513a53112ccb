import Mathlib.Data.List.Basic

/-!
# Unbounded FIFO queues

The abstract component a ring stands for: a list written at the back and read or
skipped at the front, in bulk or item by item. A call's visible result is part of the
step, so a refinement compares whole runs result by result.
-/
namespace Colinlib.Theory.Fifo

inductive Op (α : Type) where
  | write (data : List α)
  | read (n : Nat)
  | consume (n : Nat)
  deriving DecidableEq, Repr

inductive Out (α : Type) where
  | wrote
  | read (count : Nat) (data : List α)
  | consumed (done : Bool)
  deriving DecidableEq, Repr

def Out.map {α β : Type} (f : α → β) : Out α → Out β
  | .wrote => .wrote
  | .read count data => .read count (data.map f)
  | .consumed done => .consumed done

def step {α : Type} (q : List α) : Op α → Out α × List α
  | .write data => (.wrote, q ++ data)
  | .read n => (.read (min n q.length) (q.take n), q.drop n)
  | .consume n => (.consumed (decide (n ≤ q.length)), if n ≤ q.length then q.drop n else q)

def run {α : Type} : List α → List (Op α) → List (Out α) × List α
  | q, [] => ([], q)
  | q, op :: rest => ((step q op).1 :: (run (step q op).2 rest).1, (run (step q op).2 rest).2)

/-- How many items are written. -/
def written {α : Type} : List (Op α) → Nat
  | [] => 0
  | .write data :: rest => data.length + written rest
  | _ :: rest => written rest

theorem run_length_le {α : Type} (q : List α) (ops : List (Op α)) :
    (run q ops).2.length ≤ q.length + written ops := by
  induction ops generalizing q with
  | nil => exact Nat.le_refl _
  | cons op rest ih =>
      refine Nat.le_trans (ih _) ?_
      cases op with
      | write data => simp [step, written, Nat.add_assoc]
      | read n => simp [step, written]
      | consume n =>
          have shorter : (if n ≤ q.length then q.drop n else q).length ≤ q.length := by
            split
            · rw [List.length_drop]
              exact Nat.sub_le _ _
            · exact Nat.le_refl _
          exact Nat.add_le_add_right shorter (written rest)

theorem written_append {α : Type} (before after : List (Op α)) :
    written (before ++ after) = written before + written after := by
  induction before with
  | nil => simp [written]
  | cons op rest ih =>
      cases op with
      | write data => simp [written, ih, Nat.add_assoc]
      | read n => exact ih
      | consume n => exact ih

/-! ## One item at a time -/

/-- A queue of which single items are taken or looked at, from either end. -/
inductive Call (α : Type) where
  | push (a : α)
  | pop
  | peek (index : Int)
  deriving DecidableEq, Repr

/-- The item at an index; negative indices count from the newest. -/
def itemAt {α : Type} (q : List α) (index : Int) : Option α :=
  let index := if index < 0 then q.length + index else index
  if index < 0 then none else q[index.toNat]?

/-- The item a call returns, if any, and the queue it leaves. -/
def serve {α : Type} (q : List α) : Call α → Option α × List α
  | .push a => (none, q ++ [a])
  | .pop => (q.head?, q.tail)
  | .peek index => (itemAt q index, q)

def serveAll {α : Type} : List α → List (Call α) → List (Option α) × List α
  | q, [] => ([], q)
  | q, call :: rest =>
    ((serve q call).1 :: (serveAll (serve q call).2 rest).1, (serveAll (serve q call).2 rest).2)

end Colinlib.Theory.Fifo
