import Colinlib.Guarantees.SetAlgebra

/-!
# Iteration over a set, and clearing it

Both directions of the iteration go through the nodes in the order of their data, whatever
operations have built the set.
-/
namespace Colinlib.Guarantees.SetIteration
open Colinlib.Theory Colinlib.Theory.CMemory Colinlib.Theory.RedBlack Colinlib.Theory.Runs
open Colinlib.Theory.RedBlack.ColorTree
open Colinlib.Source.Set
open Colinlib.Guarantees.SetSemantics Colinlib.Guarantees.SetAlgebra

variable {α : Type} {set : Coset α} {t : ATree α} {cmp : α → α → Int}

/-- All nodes of the set with their data, in the order of the data. -/
structure Listing (set : Coset α) (cmp : α → α → Int) (nodes : List (Nat × α)) : Prop where
  all : ∀ a, (set.nodes a).isSome ↔ a ∈ nodes.map Prod.fst
  once : (nodes.map Prod.fst).Nodup
  data : ∀ e ∈ nodes, getData set (.node e.1) = .ok e.2
  increasing : (nodes.map Prod.snd).Pairwise fun x y => cmp x y < 0
  exist : ∀ x, ∃ b, cosetExist set x = .ok b ∧ (b = true ↔ Has cmp x (nodes.map Prod.snd))
  size : set.size = nodes.length

theorem listing (hc : Consistent set.fnComp) (s : Sound set t) :
    Listing set set.fnComp t.entries where
  all := s.exact
  once := s.heap.distinct
  data e there := getData_entry s.heap there
  increasing := List.pairwise_map.mpr s.sorted
  exist x := by
    obtain ⟨b, run, answer⟩ := cosetExist_spec hc s.toValid x
    exact ⟨b, run, answer.trans has_contents.symm⟩
  size := s.size

/-- The node that `coset_begin` finds, and those that `coset_next` finds from it. -/
def forward (set : Coset α) (steps : Nat) : Except Fault (List Ref) := do
  let curr ← cosetBegin set
  walk cosetNext set steps curr

def backward (set : Coset α) (steps : Nat) : Except Fault (List Ref) := do
  let curr ← cosetEnd set
  walk cosetPrev set steps curr

theorem forward_spec (v : Valid set t) {n : Nat} (enough : t.entries.length ≤ n) :
    forward set n = .ok (t.entries.map fun e => .node e.1) := by
  have steps := fun xs e ys (order : t.entries = xs ++ e :: ys) => cosetNext_spec v order
  rw [forward, begins v, ok_bind]
  exact walk_spec steps (show t.entries = [] ++ _ from rfl) enough

theorem backward_spec (v : Valid set t) {n : Nat} (enough : t.entries.length ≤ n) :
    backward set n = .ok (t.entries.reverse.map fun e => .node e.1) := by
  have steps : ∀ xs e ys, t.entries.reverse = xs ++ e :: ys →
      cosetPrev set (.node e.1) = .ok (toNode ys.head?) := by
    intro xs e ys order
    have same : t.entries = ys.reverse ++ e :: xs.reverse := by
      rw [← List.reverse_reverse t.entries, order]
      simp
    rw [cosetPrev_spec v same, List.getLast?_reverse]
  have start : cosetEnd set = .ok (toNode t.entries.reverse.head?) := outermost_spec v .right
  rw [backward, start, ok_bind]
  exact walk_spec steps (show t.entries.reverse = [] ++ _ from rfl) (by simpa using enough)

theorem split_at {a : Nat} (there : a ∈ addrs t) :
    ∃ xs e ys, t.entries = xs ++ e :: ys ∧ e.1 = a := by
  obtain ⟨e, he, rfl⟩ := List.mem_map.mp there
  obtain ⟨xs, ys, order⟩ := List.append_of_mem he
  exact ⟨xs, e, ys, order, rfl⟩

theorem toNode_eq {e : Option (Nat × α)} {b : Nat} :
    toNode e = some (.node b) ↔ ∃ x, e = some x ∧ x.1 = b := by
  simp [toNode]

/-- One node follows another just when that one precedes it. -/
theorem next_iff_prev (s : Sound set t) (a b : Nat) (ha : (set.nodes a).isSome)
    (hb : (set.nodes b).isSome) :
    cosetNext set (.node a) = .ok (some (.node b)) ↔
      cosetPrev set (.node b) = .ok (some (.node a)) := by
  constructor
  · obtain ⟨xs, e, ys, order, rfl⟩ := split_at ((s.exact a).mp ha)
    intro next
    rw [cosetNext_spec s.toValid order, Except.ok.injEq, toNode_eq] at next
    obtain ⟨x, first, rfl⟩ := next
    obtain ⟨ys, rfl⟩ := List.head?_eq_some_iff.mp first
    have order' : t.entries = (xs ++ [e]) ++ x :: ys := by simp [order]
    rw [cosetPrev_spec s.toValid order', List.getLast?_concat]
    rfl
  · obtain ⟨xs, e, ys, order, rfl⟩ := split_at ((s.exact b).mp hb)
    intro prev
    rw [cosetPrev_spec s.toValid order, Except.ok.injEq, toNode_eq] at prev
    obtain ⟨x, last, rfl⟩ := prev
    obtain ⟨xs, rfl⟩ := List.getLast?_eq_some_iff.mp last
    have order' : t.entries = xs ++ x :: e :: ys := by simp [order]
    rw [cosetNext_spec s.toValid order']
    rfl

/-- For every set that the interface can make: the walk forward takes one step for each node
and comes to all nodes in strictly increasing order of their data, the walk back comes to
them the other way round, and one step undoes the other. -/
theorem coset_iteration (cmp : α → α → Int) (hc : Consistent cmp) (set : Coset α)
    (h : Reachable cmp set) : ∃ nodes, Listing set cmp nodes ∧
      forward set set.size.toNat = .ok (nodes.map fun e => .node e.1) ∧
      backward set set.size.toNat = .ok (nodes.map fun e => Ref.node e.1).reverse ∧
      ∀ a b, (set.nodes a).isSome → (set.nodes b).isSome →
        (cosetNext set (.node a) = .ok (some (.node b)) ↔
          cosetPrev set (.node b) = .ok (some (.node a))) := by
  obtain ⟨rfl, t, s⟩ := h.sound hc
  have steps : t.entries.length ≤ set.size.toNat := by
    have := s.size
    omega
  refine ⟨t.entries, listing hc s, forward_spec s.toValid steps, ?_, next_iff_prev s⟩
  rw [backward_spec s.toValid steps, List.map_reverse]

/-- Three insertions and a deletion. -/
theorem coset_iteration_integers : ∃ set : Coset Int,
    [4, 7, 2].foldlM cosetAdd (cosetNew fun x y => x - y) = .ok set ∧
    ∃ nodes, Listing set (fun x y => x - y) nodes ∧
      forward set set.size.toNat = .ok (nodes.map fun e => .node e.1) := by
  have h := Reachable.adds (@Reachable.new Int fun x y => x - y) [4, 7, 2] rfl
  obtain ⟨nodes, listed, walked, -⟩ := coset_iteration _ consistent_sub _ h
  exact ⟨_, rfl, nodes, listed, walked⟩

/-- For every set that the interface can make, `coset_clear` returns an empty set: every node
of the set is freed by one deletion, which is given the data of that node while it is
allocated, and no node is left. -/
theorem coset_clear_frees (cmp : α → α → Int) (hc : Consistent cmp) (set : Coset α)
    (h : Reachable cmp set) : ∃ set' nodes, cosetClear set = .ok set' ∧
      set'.root = .nil ∧ set'.size = 0 ∧ (∀ a, set'.nodes a = none) ∧
      FreesInTurn set nodes set' ∧ nodes.Nodup ∧ ∀ a, (set.nodes a).isSome ↔ a ∈ nodes := by
  obtain ⟨rfl, t, s⟩ := h.sound hc
  obtain ⟨set', run, empty, -, frees⟩ := cosetClear_spec hc s
  have nothing : ∀ a, set'.nodes a = none := fun a => empty.absent (by simp [addrs, entries])
  exact ⟨set', addrs t, run, empty.heap.root, empty.size, nothing, frees, s.heap.distinct, s.exact⟩

theorem coset_clear_frees_integers : ∃ set set' : Coset Int,
    [2, 1, 3].foldlM cosetAdd (cosetNew fun x y => x - y) = .ok set ∧
    cosetClear set = .ok set' ∧ set'.root = .nil ∧ set'.size = 0 := by
  have h := Reachable.adds (@Reachable.new Int fun x y => x - y) [2, 1, 3] rfl
  obtain ⟨set', nodes, run, root, size, -⟩ := coset_clear_frees _ consistent_sub _ h
  exact ⟨_, set', rfl, run, root, size⟩

end Colinlib.Guarantees.SetIteration
