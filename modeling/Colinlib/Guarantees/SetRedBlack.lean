import Colinlib.Source.SetDelete
import Colinlib.Theory.Runs

/-!
# Every reachable set is a red-black search tree

The set is run from `coset_new` by any additions and deletions, for a comparator
that is consistent with a total order. A run has no next state only where
`size++` leaves the `int` range; in particular no step uses the sentinel's null
children, and no loop runs out of steps.
-/
namespace Colinlib.Guarantees.SetRedBlack
open Colinlib.Theory Colinlib.Theory.CMemory Colinlib.Theory.RedBlack
open Colinlib.Source.Set

variable {α : Type}

inductive Op (α : Type) where
  | add (data : α)
  | delete (data : α)

def step (set : Coset α) : Op α → Except Fault (Coset α)
  | .add data => cosetAdd set data
  | .delete data => cosetDelete set data

/-- At every node the left subtree is smaller and the right subtree larger. -/
def SearchTree (cmp : α → α → Int) : ATree α → Prop
  | .leaf => True
  | .node _ l e r => (∀ x ∈ l.entries, cmp x.2 e.2 < 0) ∧ (∀ x ∈ r.entries, cmp e.2 x.2 < 0) ∧
      SearchTree cmp l ∧ SearchTree cmp r

/-- The nodes reachable from `root` are the tree `t`: parent links included, the
root's parent being the sentinel. -/
structure RedBlackSet (set : Coset α) (t : ATree α) : Prop where
  root : set.root = ref t
  graph : Holds set.nodes t .nil
  distinct : (addrs t).Nodup
  search : SearchTree set.fnComp t
  nilBlack : set.nilColor = .black
  rootBlack : t.color = .black
  balanced : ∃ m, ColorTree.Balanced t m
  size : set.size = t.entries.length
  height : t.height ≤ 2 * Nat.log 2 (t.entries.length + 1)

theorem searchTree_of_sorted {cmp : α → α → Int} {t : ATree α} (h : Sorted cmp t.entries) :
    SearchTree cmp t := by
  induction t with
  | leaf => trivial
  | node c l e r ihl ihr =>
      obtain ⟨hl, her, hlr⟩ := List.pairwise_append.mp h
      obtain ⟨he, hr⟩ := List.pairwise_cons.mp her
      exact ⟨fun x hx => hlr x hx e List.mem_cons_self, he, ihl hl, ihr hr⟩

theorem redBlackSet_of_valid {set : Coset α} {t : ATree α} (v : Valid set t) :
    RedBlackSet set t where
  root := v.heap.root
  graph := v.heap.holds
  distinct := v.heap.distinct
  search := searchTree_of_sorted v.sorted
  nilBlack := v.heap.nilBlack
  rootBlack := v.black
  balanced := v.balanced
  size := v.size
  height := by
    obtain ⟨m, hm⟩ := v.balanced
    exact hm.height_le_log v.black

/-- One operation keeps the comparator and the shape. -/
theorem step_valid {cmp : α → α → Int} (hc : Consistent cmp) (set : Coset α) (op : Op α)
    (h : set.fnComp = cmp ∧ ∃ t, Valid set t) :
    UnlessOverflow (step set op) (fun set' => set'.fnComp = cmp ∧ ∃ t, Valid set' t) := by
  obtain ⟨rfl, t, v⟩ := h
  cases op with
  | add data =>
      refine (cosetAdd_spec hc v data).mono ?_
      rintro set' ⟨hcomp, t', v', _⟩
      exact ⟨hcomp, t', v'⟩
  | delete data =>
      obtain ⟨set', t', run, hcomp, v', _⟩ := cosetDelete_spec hc v data
      rw [step, run]
      exact ⟨hcomp, t', v'⟩

/-- After any additions and deletions the set is a red-black search tree. -/
theorem coset_red_black (cmp : α → α → Int) (hc : Consistent cmp) (ops : List (Op α)) :
    UnlessOverflow (Runs.run step (cosetNew cmp) ops) (fun set => ∃ t, RedBlackSet set t) := by
  have run := Runs.outcome_run step (· = Fault.intOverflow)
    (fun set : Coset α => set.fnComp = cmp ∧ ∃ t, Valid set t)
    (fun set op h => by
      have := step_valid hc set op h
      revert this
      cases step set op <;> exact id)
    ops (cosetNew cmp) ⟨rfl, .leaf, cosetNew_valid cmp⟩
  revert run
  cases Runs.run step (cosetNew cmp) ops with
  | error f => exact id
  | ok set =>
      rintro ⟨_, t, v⟩
      exact ⟨t, redBlackSet_of_valid v⟩

/-- Five insertions in order and two deletions, the second of a node with two
children. -/
theorem coset_red_black_integers :
    Consistent (fun x y : Int => x - y) ∧
    UnlessOverflow (Runs.run step (cosetNew (fun x y : Int => x - y))
      [.add 1, .add 2, .add 3, .add 4, .add 5, .delete 1, .delete 4])
      (fun set => ∃ t, RedBlackSet set t) :=
  ⟨consistent_sub, coset_red_black _ consistent_sub _⟩

end Colinlib.Guarantees.SetRedBlack
