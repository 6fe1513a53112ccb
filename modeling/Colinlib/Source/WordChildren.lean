import Mathlib.Data.Int.Order.Basic
import Mathlib.Logic.Function.Basic
import Colinlib.Source.Vec
import Colinlib.Theory.Bisect

/-!
# The children of a node in memory (`co_wordfilter.c`)

`Source.WordFilter` has the trie as a value. Here a node is in memory, its child array is a
vector of pointers, and a code is any `int`, as `_cowf_find_child` takes it. A pointer is a
number.
-/
namespace Colinlib.Source.WordChildren
open Colinlib.Theory Colinlib.Theory.CMemory Colinlib.Theory.Bisect Colinlib.Source.Vec

/-- `cowf_node_t` -/
structure CowfNode where
  chvec : Option (Covec Nat)
  code : Int
  isend : Bool
  deriving DecidableEq, Repr

abbrev Nodes := Nat → Option CowfNode

def nodeAt (nodes : Nodes) (p : Nat) : Except Fault CowfNode :=
  match nodes p with
  | some node => .ok node
  | none => .error .badPointer

def sizeofPointer : Nat := 8

/-- `covec_get_tp`, which reads through the pointer to the item. -/
def covecGetTp (chvec : Covec Nat) (index : Int) : Except Fault Nat :=
  match covecGetPtr chvec index with
  | none => .error .nullPointer
  | some i => do
    match ← load chvec.data i 1 with
    | [some p] => return p
    | _ => .error .badPointer

/-- The loop of `_cowf_find_child`. Its bounds are not negative where they are added. -/
def findLoop (nodes : Nodes) (chvec : Covec Nat) (code : Int) :
    Nat → Int → Int → Int → Option Nat → Except Fault (Option Nat × Int)
  | 0, _, _, _, _ => .error .starved
  | fuel + 1, mid, low, high, node =>
    if low ≤ high then do
      let sum ← addInt32 high.toNat low
      let mid := sum / 2
      let node ← covecGetTp chvec mid
      let child ← nodeAt nodes node
      if code = child.code then return (some node, mid)
      else if code > child.code then findLoop nodes chvec code fuel mid (mid + 1) high (some node)
      else findLoop nodes chvec code fuel mid low (mid - 1) (some node)
    else
      match node with
      | none => return (none, mid)
      | some node => do
        let child ← nodeAt nodes node
        return (none, if code < child.code then mid else mid + 1)

/-- `_cowf_find_child` -/
def cowfFindChild (nodes : Nodes) (parent : Nat) (code : Int) :
    Except Fault (Nodes × Option Nat × Int) := do
  let node ← nodeAt nodes parent
  let chvec := node.chvec.getD (covecNew Nat sizeofPointer)
  let nodes := Function.update nodes parent (some { node with chvec := some chvec })
  let n := chvec.size
  let (found, index) ← findLoop nodes chvec code (n + 1) 0 0 (n - 1 : Int) none
  return (nodes, found, index)

/-- `_cowf_insert_child`; a new node is placed at `fresh`. -/
def cowfInsertChild (nodes : Nodes) (fresh parent : Nat) (code : Int) :
    Except Fault (Nodes × Nat) := do
  let (nodes, found, index) ← cowfFindChild nodes parent code
  match found with
  | some node => return (nodes, node)
  | none =>
    let nodes := Function.update nodes fresh (some ⟨none, code, false⟩)
    let node ← nodeAt nodes parent
    match node.chvec with
    | none => .error .nullPointer
    | some chvec =>
      let (_, chvec) ← covecPush chvec index fresh
      return (Function.update nodes parent (some { node with chvec := some chvec }), fresh)

/-! ## Child arrays -/

/-- The pointers in a child array, which is `NULL` before it is first looked at. The
allocation has room for its capacity. -/
def Points : Option (Covec Nat) → List Nat → Prop
  | none, kids => kids = []
  | some chvec, kids => Holds chvec kids ∧ chvec.itemsize = sizeofPointer ∧
      chvec.cap * sizeofPointer < 2 ^ 32

/-- The children of a node, and their codes. -/
structure Children (nodes : Nodes) (parent : Nat) (kids : List Nat) (codes : List Int) : Prop where
  vector : ∃ node, nodes parent = some node ∧ Points node.chvec kids
  codes : kids.map (fun p => (nodes p).map CowfNode.code) = codes.map some

/-! ## The search -/

section Search
variable {nodes : Nodes} {chvec : Covec Nat} {kids : List Nat} {codes : List Int} {code : Int}

theorem covecGetTp_kid (holds : Holds chvec kids) {i : Nat} (inside : i < kids.length) :
    covecGetTp chvec i = .ok kids[i] := by
  have bound : i + 1 ≤ chvec.data.length := by
    rw [holds.cap]
    exact Nat.le_trans (by rw [holds.size]; exact inside) holds.fits
  have cell : slice chvec.data i 1 = [some kids[i]] := by
    apply List.ext_getElem?
    intro j
    rw [slice_getElem?]
    cases j with
    | zero => rw [if_pos Nat.one_pos, Nat.add_zero, holds.cell i inside]; rfl
    | succ j => rw [if_neg (by omega)]; rfl
  unfold covecGetTp
  simp only [covecGetPtr_spec holds i inside, load, if_pos bound, ok_bind, cell]
  rfl

/-- The pointers and the codes go together. -/
theorem codes_at (same : kids.map (fun p => (nodes p).map CowfNode.code) = codes.map some)
    {i : Nat} (inside : i < kids.length) : ∃ child, nodes kids[i] = some child ∧
      codes[i]? = some child.code := by
  have at' := congrArg (·[i]?) same
  simp only [List.getElem?_map, List.getElem?_eq_getElem inside, Option.map_some] at at'
  cases here : nodes kids[i] with
  | none =>
      rw [here] at at'
      cases code : codes[i]? <;> simp [code] at at'
  | some child =>
      rw [here] at at'
      cases code : codes[i]? with
      | none => simp [code] at at'
      | some c =>
          simp only [code, Option.map_some, Option.some.injEq] at at'
          exact ⟨child, rfl, by rw [at']⟩

theorem codes_length (same : kids.map (fun p => (nodes p).map CowfNode.code) = codes.map some) :
    codes.length = kids.length := by
  have lengths := congrArg List.length same
  simpa using lengths.symm

/-- The child, or the gap for one. -/
def Found (kids : List Nat) (codes : List Int) (code : Int) (found : Option Nat) (index : Int) :
    Prop :=
  ∃ i : Nat, index = i ∧ match found with
    | some child => kids[i]? = some child ∧ codes[i]? = some code
    | none => Gap codes code i

theorem findLoop_spec (holds : Holds chvec kids) (small : kids.length ≤ 2 ^ 30)
    (same : kids.map (fun p => (nodes p).map CowfNode.code) = codes.map some)
    (inc : Increasing codes) (fuel : Nat) {mid low high : Int} {node : Option Nat}
    {last : Option Int} (h : Bounds codes code mid low high last)
    (looked : node.map (fun p => (nodes p).map CowfNode.code) = last.map some)
    (enough : high - low + 1 < fuel) : ∃ found index,
      findLoop nodes chvec code fuel mid low high node = .ok (found, index) ∧
        Found kids codes code found index := by
  have length := codes_length same
  induction fuel generalizing mid low high node last with
  | zero =>
      have := h.meet
      omega
  | succ fuel ih =>
      have nonneg := h.low_nonneg
      have bounded := h.high_lt
      unfold findLoop
      split
      · next inside =>
          obtain ⟨i, hi⟩ : ∃ i : Nat, (high + low) / 2 = i := ⟨((high + low) / 2).toNat, by omega⟩
          have range : i < kids.length := by omega
          have sum : addInt32 high.toNat low = .ok (high + low) := by
            unfold addInt32 intMax
            rw [Int.toNat_of_nonneg (by omega), if_pos (by omega)]
          obtain ⟨child, here, code'⟩ := codes_at same range
          have at' : nodeAt nodes kids[i] = .ok child := by
            unfold nodeAt
            rw [here]
          have probed : (some kids[i]).map (fun p => (nodes p).map CowfNode.code) =
              (some child.code).map some := by
            simp [here]
          simp only [sum, ok_bind, hi, covecGetTp_kid holds range, at']
          split
          · next equal =>
              refine ⟨_, _, rfl, i, rfl, List.getElem?_eq_getElem range, ?_⟩
              rw [code', equal]
          · next other =>
              split
              · next above => exact ih (h.right inc code' (by omega) above) probed (by omega)
              · next below => exact ih (h.left inc code' (by omega) (by omega)) probed (by omega)
      · next closed =>
          obtain ⟨gap, place⟩ := h.met (by omega)
          cases node with
          | none =>
              cases last with
              | some c => cases looked
              | none => exact ⟨none, mid, rfl, low.toNat, by simp only at place; omega, gap⟩
          | some p =>
              cases last with
              | none => cases looked
              | some c =>
                  simp only [Option.map_some, Option.some.injEq] at looked
                  obtain ⟨child, here, rfl⟩ := Option.map_eq_some_iff.mp looked
                  have at' : nodeAt nodes p = .ok child := by
                    unfold nodeAt
                    rw [here]
                  simp only [at', ok_bind]
                  refine ⟨none, _, rfl, low.toNat, ?_, gap⟩
                  split
                  · next below => have := place.1 below; omega
                  · next upto => have := place.2 upto; omega

end Search

end Colinlib.Source.WordChildren
