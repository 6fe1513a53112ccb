import Mathlib.Data.List.Basic

/-!
# Histories of events

A history is the list of what has happened, the newest event first. One is lawful where each
event was allowed by what came before it. Where a clock ticks, the ticks of a part of a history
measure the time in it.
-/
namespace Colinlib.Theory.Histories

variable {E : Type} {allowed : List E → E → Prop}

/-- Each event was allowed after those before it. -/
def Lawful (allowed : List E → E → Prop) : List E → Prop
  | [] => True
  | e :: h => allowed h e ∧ Lawful allowed h

theorem Lawful.of_append {post pre : List E} (h : Lawful allowed (post ++ pre)) :
    Lawful allowed pre := by
  induction post with
  | nil => exact h
  | cons e post ih => exact ih h.2

/-- How many ticks of a clock there are in a history. -/
def ticks [DecidableEq E] (tick : E) (h : List E) : Nat := h.count tick

section Ticks
variable [DecidableEq E] {tick : E}

@[simp] theorem ticks_nil : ticks tick [] = 0 := rfl

@[simp] theorem ticks_tick (h : List E) : ticks tick (tick :: h) = ticks tick h + 1 :=
  List.count_cons_self

theorem ticks_other {e : E} (other : e ≠ tick) (h : List E) : ticks tick (e :: h) = ticks tick h :=
  List.count_cons_of_ne other

theorem ticks_append (post pre : List E) :
    ticks tick (post ++ pre) = ticks tick post + ticks tick pre :=
  List.count_append

end Ticks

end Colinlib.Theory.Histories
