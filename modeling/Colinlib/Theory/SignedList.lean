import Mathlib.Data.List.Basic

/-!
# Lists addressed from both ends

The abstract component a growable array stands for. An index below zero counts from the
end, an item that was never set is unspecified (`none`), and a list that is made longer
shows arbitrary items. What a call may return and leave is a relation.
-/
namespace Colinlib.Theory.SignedList

variable {α : Type}

/-- Where a call works. -/
inductive Place where
  | index (i : Int)
  | head
  | tail
  deriving DecidableEq, Repr

/-- The position an index means in a list of `n` items. -/
def signed (n : Nat) (i : Int) : Int := if i < 0 then n + i else i

/-- The item at a place. -/
def Place.item (n : Nat) : Place → Option Nat
  | .index i => if 0 ≤ signed n i ∧ signed n i < n then some (signed n i).toNat else none
  | .head => if 0 < n then some 0 else none
  | .tail => if 0 < n then some (n - 1) else none

/-- The gap in front of a place, where the last one is behind all items. -/
def Place.gap (n : Nat) : Place → Option Nat
  | .index i => if 0 ≤ signed n i ∧ signed n i ≤ n then some (signed n i).toNat else none
  | .head => some 0
  | .tail => some n

inductive Call (α : Type) where
  | push (p : Place) (x : α)
  | get (p : Place)
  | set (p : Place) (x : α)
  | del (p : Place) (keep : Bool)
  | swap (i j : Int)
  | growcap (cap : Int)
  | resize (n : Nat)
  | clear
  deriving DecidableEq, Repr

inductive Reply (α : Type) where
  | status (done : Bool)
  | item (x : Option (Option α))
  | nothing
  deriving DecidableEq, Repr

/-- Two items change places. -/
def exchange {β : Type} (xs : List β) (a b : Nat) : List β :=
  match xs[a]?, xs[b]? with
  | some x, some y => (xs.set a y).set b x
  | _, _ => xs

/-- The call names an item or a gap that is not there. -/
def Call.refused (n : Nat) : Call α → Bool
  | .push p _ => (p.gap n).isNone
  | .get p | .set p _ | .del p _ => (p.item n).isNone
  | .swap i j => ((Place.index i).item n).isNone || ((Place.index j).item n).isNone
  | .growcap _ | .resize _ | .clear => false

/-- What a call may return, and leave of the items. -/
def Acts (xs : List (Option α)) : Call α → Reply α → List (Option α) → Prop
  | .push p x, out, ys =>
    match p.gap xs.length with
    | some k => out = .status true ∧ ys = xs.insertIdx k (some x)
    | none => out = .status false ∧ ys = xs
  | .get p, out, ys => out = .item ((p.item xs.length).bind (xs[·]?)) ∧ ys = xs
  | .set p x, out, ys =>
    match p.item xs.length with
    | some k => out = .status true ∧ ys = xs.set k (some x)
    | none => out = .status false ∧ ys = xs
  | .del p keep, out, ys =>
    match p.item xs.length with
    | some k => out = (if keep then .item xs[k]? else .status true) ∧ ys = xs.eraseIdx k
    | none => out = (if keep then .item none else .status false) ∧ ys = xs
  | .swap i j, out, ys =>
    out = .nothing ∧
      match (Place.index i).item xs.length, (Place.index j).item xs.length with
      | some a, some b => ys = exchange xs a b
      | _, _ => ys = xs
  | .growcap _, out, ys => out = .nothing ∧ ys = xs
  | .resize n, out, ys => out = .nothing ∧ ys.length = n ∧ ys.take xs.length = xs.take n
  | .clear, out, ys => out = .nothing ∧ ys = []

/-- The same for a sequence of calls. -/
def ActsAll : List (Option α) → List (Call α) → List (Reply α) → List (Option α) → Prop
  | xs, [], outs, ys => outs = [] ∧ ys = xs
  | _, _ :: _, [], _ => False
  | xs, call :: calls, out :: outs, ys => ∃ zs, Acts xs call out zs ∧ ActsAll zs calls outs ys

/-- The index that names the same item. -/
def Place.itemIndex (n : Nat) : Place → Int
  | .index i => i
  | .head => 0
  | .tail => n - 1

/-- The index that names the same gap. -/
def Place.gapIndex (n : Nat) : Place → Int
  | .index i => i
  | .head => 0
  | .tail => n

theorem Place.item_index {n k : Nat} {i : Int} (position : signed n i = k) :
    (Place.index i).item n = if k < n then some k else none := by
  simp only [Place.item, position]
  by_cases inside : k < n
  · rw [if_pos inside, if_pos (by omega), Int.toNat_natCast]
  · rw [if_neg inside, if_neg (by omega)]

theorem Place.gap_index {n k : Nat} {i : Int} (position : signed n i = k) :
    (Place.index i).gap n = if k ≤ n then some k else none := by
  simp only [Place.gap, position]
  by_cases inside : k ≤ n
  · rw [if_pos inside, if_pos (by omega), Int.toNat_natCast]
  · rw [if_neg inside, if_neg (by omega)]

theorem signed_nat (n k : Nat) : signed n (k : Int) = k := if_neg (by omega)

theorem Place.item_eq (n : Nat) (p : Place) :
    p.item n = (Place.index (p.itemIndex n)).item n := by
  cases p with
  | index i => rfl
  | head => exact (item_index (signed_nat n 0)).symm
  | tail =>
      by_cases some' : 0 < n
      · have position : signed n ((n : Int) - 1) = (n - 1 : Nat) := by
          rw [signed, if_neg (by omega)]
          omega
        have last : (Place.index ((n : Int) - 1)).item n = some (n - 1) := by
          rw [item_index position, if_pos (by omega)]
        exact (if_pos some').trans last.symm
      · have position : signed n ((n : Int) - 1) = -1 := by
          rw [signed, if_pos (by omega)]
          omega
        have none : (Place.index ((n : Int) - 1)).item n = none := by
          simp only [item, position]
          rw [if_neg (by omega)]
        exact (if_neg some').trans none.symm

theorem Place.gap_eq (n : Nat) (p : Place) : p.gap n = (Place.index (p.gapIndex n)).gap n := by
  cases p with
  | index i => rfl
  | head => exact (gap_index (signed_nat n 0)).symm
  | tail =>
      rw [gapIndex, gap_index (signed_nat n n), if_pos (Nat.le_refl n)]
      rfl

theorem Place.item_lt {n k : Nat} {p : Place} (h : p.item n = some k) : k < n := by
  cases p with
  | index i =>
      simp only [Place.item] at h
      split at h
      · cases h
        omega
      · cases h
  | head | tail =>
      simp only [Place.item] at h
      split at h
      · cases h
        omega
      · cases h

end Colinlib.Theory.SignedList
