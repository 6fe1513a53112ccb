import Colinlib.Source.WordChildren
import Colinlib.Source.WordTrie

/-!
# The search among the children of a node

The search ends with the child, or with the place where one of that code belongs; pushed
there, it keeps the children in order.
-/
namespace Colinlib.Guarantees.ChildSearch
open Colinlib.Theory.CMemory Colinlib.Theory.Bisect
open Colinlib.Source Colinlib.Source.Vec Colinlib.Source.WordChildren

variable {nodes : Nodes} {parent : Nat} {kids : List Nat} {codes : List Int} {code : Int}

/-- Pushed at `index` into the child array, a node of this code leaves the children in order:
the pointers and the codes make room at the same place. -/
def Inserts (nodes : Nodes) (parent : Nat) (kids : List Nat) (codes : List Int) (code : Int)
    (index : Int) : Prop :=
  ∃ i : Nat, index = i ∧ i ≤ kids.length ∧ Increasing (codes.insertIdx i code) ∧
    ∃ node chvec, nodes parent = some node ∧ node.chvec = some chvec ∧ ∀ child,
      UnlessOverflow (covecPush chvec index child) fun out =>
        out.1 = true ∧ Holds out.2 (kids.insertIdx i child)

/-- What a search for the code returns. -/
def Places (nodes : Nodes) (parent : Nat) (kids : List Nat) (codes : List Int) (code : Int) :
    Option Nat → Int → Prop
  | some child, index => ∃ i : Nat, index = i ∧ kids[i]? = some child ∧ codes[i]? = some code
  | none, index => code ∉ codes ∧ Inserts nodes parent kids codes code index

/-- The child array with its allocation. -/
theorem Points.allocated {chvec : Option (Covec Nat)} (points : Points chvec kids) :
    Points (some (chvec.getD (covecNew Nat sizeofPointer))) kids := by
  cases chvec with
  | some v => exact points
  | none =>
      cases points
      exact ⟨covecNew_holds sizeofPointer, rfl, by decide⟩

/-- What a pointer leads to has the same code when the child array is allocated. -/
theorem Children.allocated {node : CowfNode} (h : Children nodes parent kids codes)
    (here : nodes parent = some node) : Children (Function.update nodes parent (some { node with
      chvec := some (node.chvec.getD (covecNew Nat sizeofPointer)) })) parent kids codes := by
  obtain ⟨node', here', points⟩ := h.vector
  obtain rfl : node = node' := Option.some.inj (here.symm.trans here')
  refine ⟨⟨_, Function.update_self _ _ _, Points.allocated points⟩, ?_⟩
  rw [← h.codes]
  refine List.map_congr_left fun p _ => ?_
  by_cases same : p = parent
  · subst same
    rw [Function.update_self, here]
    rfl
  · rw [Function.update_of_ne same]

/-- The search ends with the child, or with the gap for one. -/
theorem cowfFindChild_spec (h : Children nodes parent kids codes) (inc : Increasing codes)
    (code : Int) : ∃ nodes' found index,
      cowfFindChild nodes parent code = .ok (nodes', found, index) ∧
        Children nodes' parent kids codes ∧ Found kids codes code found index ∧
        ∃ node chvec, nodes' parent = some node ∧ node.chvec = some chvec := by
  obtain ⟨node, here, points⟩ := h.vector
  have kept := Children.allocated h here
  obtain ⟨holds, itemsize, small⟩ := Points.allocated points
  have length := codes_length kept.codes
  have few : kids.length ≤ 2 ^ 30 := by
    have size := holds.size
    have fits := holds.fits
    change _ * 8 < _ at small
    omega
  have start := Bounds.start codes code
  rw [length, ← holds.size] at start
  have searched : ∃ found index, findLoop _ (node.chvec.getD (covecNew Nat sizeofPointer)) code
      ((node.chvec.getD (covecNew Nat sizeofPointer)).size + 1) 0 0 _ none = .ok (found, index) ∧
        Found kids codes code found index :=
    findLoop_spec holds few kept.codes inc _ start rfl (by omega)
  obtain ⟨found, index, ran, placed⟩ := searched
  refine ⟨_, found, index, ?_, kept, placed, _, _, Function.update_self _ _ _, rfl⟩
  unfold cowfFindChild nodeAt
  simp only [here, ok_bind, ran]
  rfl

/-- A gap is where a node of this code can be pushed. -/
theorem found_places {node : CowfNode} {chvec : Covec Nat} {found : Option Nat} {index : Int}
    (placed : Found kids codes code found index) (h : Children nodes parent kids codes)
    (inc : Increasing codes) (here : nodes parent = some node)
    (allocated : node.chvec = some chvec) : Places nodes parent kids codes code found index := by
  obtain ⟨i, rfl, placed⟩ := placed
  obtain ⟨node', here', points⟩ := h.vector
  obtain rfl : node = node' := Option.some.inj (here.symm.trans here')
  rw [allocated] at points
  cases found with
  | some child => exact ⟨i, rfl, placed⟩
  | none =>
      have inside := placed.inside
      rw [codes_length h.codes] at inside
      exact ⟨placed.absent, i, rfl, inside, placed.increasing inc, node, chvec, here, allocated,
        fun child => covecPush_spec points.1 inside child⟩

/-- **Child search.** In a parent whose children are in order, the search for any code ends with
the child and its index, or with an index where one can be inserted. -/
theorem findChild_places (h : Children nodes parent kids codes) (inc : Increasing codes)
    (code : Int) : ∃ nodes' found index,
      cowfFindChild nodes parent code = .ok (nodes', found, index) ∧
        Children nodes' parent kids codes ∧ Places nodes' parent kids codes code found index := by
  obtain ⟨nodes', found, index, ran, kept, placed, node, chvec, here, allocated⟩ :=
    cowfFindChild_spec h inc code
  exact ⟨nodes', found, index, ran, kept, found_places placed kept inc here allocated⟩

/-- A child array for the nodes at 1 and 2. -/
def twoPointers : Covec Nat := ⟨[some 1, some 2, none, none, none, none, none, none], 8, 2, 8⟩

/-- A parent at 0 with children for the codes 10 and 30. -/
def twoChildren : Nodes := fun p =>
  if p = 0 then some ⟨some twoPointers, 0, false⟩
  else if p = 1 then some ⟨none, 10, false⟩
  else if p = 2 then some ⟨none, 30, false⟩
  else none

theorem findChild_places_between : ∃ nodes' found index,
    cowfFindChild twoChildren 0 20 = .ok (nodes', found, index) ∧
      Children nodes' 0 [1, 2] [10, 30] ∧ Places nodes' 0 [1, 2] [10, 30] 20 found index :=
  have holds : Holds twoPointers [1, 2] := ⟨⟨rfl, by decide⟩, rfl, rfl⟩
  findChild_places ⟨⟨⟨some twoPointers, 0, false⟩, rfl, holds, rfl, by decide⟩, rfl⟩
    (by simp [Increasing]) 20

/-! ## The trie as a value -/

/-- What is found, and where. -/
theorem found_position {found : Option Nat} {index : Int}
    (placed : Found kids codes code found index) :
    ∃ i : Nat, index = i ∧ Position codes code found.isSome i := by
  obtain ⟨i, rfl, placed⟩ := placed
  cases found with
  | some child => exact ⟨i, rfl, placed.2⟩
  | none => exact ⟨i, rfl, placed⟩

theorem located_position {children : List WordFilter.Node} {code : Nat}
    {found : Option WordFilter.Node} {index : Int}
    (located : WordTrie.Located children code found index) : ∃ i : Nat, index = i ∧
      Position (children.map fun child => (child.code : Int)) code found.isSome i := by
  obtain ⟨l, r, rfl, located⟩ := located
  refine ⟨l.length, rfl, ?_⟩
  cases found with
  | some node =>
      obtain ⟨rfl, rfl⟩ := located
      simp [Position]
  | none =>
      obtain ⟨rfl, gap⟩ := located
      refine ⟨by simp, ?_, ?_⟩
      · simpa using gap.before
      · simpa using gap.after

/-- The search in memory ends as the search in the value does, at the same index. -/
theorem findChild_refines {tree : WordFilter.Node} (ordered : WordTrie.Ordered tree)
    (h : Children nodes parent kids (tree.children.map fun child => (child.code : Int)))
    (code : Nat) : ∃ nodes' found tree' found' index,
      cowfFindChild nodes parent code = .ok (nodes', found, index) ∧
        WordFilter.findChild tree code = .ok (tree', found', index) ∧
        found.isSome = found'.isSome := by
  have inc : Increasing (tree.children.map fun child => (child.code : Int)) :=
    List.pairwise_map.mpr ((List.pairwise_map.mp ordered.here).imp fun below => by omega)
  obtain ⟨nodes', found, index, ran, -, placed, -⟩ := cowfFindChild_spec h inc code
  obtain ⟨found', index', ran', located⟩ := WordTrie.findChild_spec ordered code
  obtain ⟨i, rfl, here⟩ := found_position placed
  obtain ⟨j, rfl, here'⟩ := located_position located
  obtain ⟨same, rfl⟩ := here.unique inc here'
  exact ⟨nodes', found, _, found', i, ran, ran', same⟩

end Colinlib.Guarantees.ChildSearch
