import Colinlib.Theory.Bisect
import Colinlib.Theory.Keyed
import Colinlib.Source.WordFilter

/-!
# The trie of the word filter

The children of a node stand in increasing order of their codes, at every node. `has`
is the set of words; each function is given by what it does to that set, and leaves
the order in place.
-/
namespace Colinlib.Source.WordTrie
open Colinlib.Theory Colinlib.Theory.Bisect Colinlib.Theory.CMemory Colinlib.Theory.Utf8
open Colinlib.Source.Utf8 Colinlib.Source.WordFilter

/-- The codes increase at the node and everywhere below it. -/
inductive Ordered : Node → Prop
  | mk {node : Node} (here : Increasing (node.children.map Node.code))
      (below : ∀ child ∈ node.children, Ordered child) : Ordered node

def lookup (children : List Node) (c : Nat) : Option Node :=
  Keyed.find Node.code (· = ·) c children

/-- Whether the word leads from the node to one that ends a word. -/
def has : Node → List Nat → Bool
  | node, [] => node.isend
  | node, c :: w =>
    match lookup node.children c with
    | none => false
    | some child => has child w

/-! ## The child search -/

theorem distinct_codes {children : List Node} (inc : Increasing (children.map Node.code)) :
    Keyed.Distinct Node.code (· = ·) children :=
  (List.pairwise_map.mp inc).imp Nat.ne_of_lt

theorem equal_codes : Equivalence (α := Nat) (· = ·) := ⟨fun _ => rfl, Eq.symm, Eq.trans⟩

theorem lookup_split {l r : List Node} {node : Node}
    (inc : Increasing ((l ++ node :: r).map Node.code)) (c : Nat) :
    lookup (l ++ node :: r) c = if c = node.code then some node else lookup (l ++ r) c := by
  split
  · next same => exact Keyed.find_split equal_codes (distinct_codes inc) same
  · next other => exact Keyed.find_skip other

section Search
variable {children : List Node} {code : Nat}

/-- Where the child is, or where it belongs. -/
def Located (children : List Node) (code : Nat) (found : Option Node) (index : Int) : Prop :=
  ∃ l r, index = (l.length : Int) ∧
    match found with
    | some node => children = l ++ node :: r ∧ node.code = code
    | none => children = l ++ r ∧ Gap (children.map Node.code) code l.length

theorem childAt_ok {i : Nat} {node : Node} {index : Int} (here : index = i)
    (h : children[i]? = some node) : childAt children index = .ok node := by
  unfold childAt
  rw [here, Int.toNat_natCast, h]

theorem code_at {i : Nat} (inside : i < children.length) :
    (children.map Node.code)[i]? = some children[i].code := by
  rw [List.getElem?_map, List.getElem?_eq_getElem inside]
  rfl

/-- Where there is a gap, the child belongs. -/
theorem located_gap {low : Int} (nonneg : 0 ≤ low)
    (gap : Gap (children.map Node.code) code low.toNat) : Located children code none low := by
  have inside := gap.inside
  rw [List.length_map] at inside
  have length : (children.take low.toNat).length = low.toNat := by
    rw [List.length_take, Nat.min_eq_left inside]
  refine ⟨children.take low.toNat, children.drop low.toNat, ?_, (List.take_append_drop _ _).symm, ?_⟩
  · rw [length, Int.toNat_of_nonneg nonneg]
  · rwa [length]

theorem searchLoop_spec (inc : Increasing (children.map Node.code)) (fuel : Nat)
    {mid low high : Int} {last : Option Node}
    (h : Bounds (children.map Node.code) code mid low high (last.map Node.code))
    (enough : high - low + 1 < fuel) : ∃ found index,
      searchLoop children code fuel mid low high last = .ok (found, index) ∧
        Located children code found index := by
  induction fuel generalizing mid low high last with
  | zero =>
      have := h.meet
      omega
  | succ fuel ih =>
      have nonneg := h.low_nonneg
      have bounded := h.high_lt
      rw [List.length_map] at bounded
      unfold searchLoop
      split
      · next inside =>
          obtain ⟨i, hi⟩ : ∃ i : Nat, (high + low) / 2 = i := ⟨((high + low) / 2).toNat, by omega⟩
          have range : i < children.length := by omega
          have here : children[i]? = some children[i] := List.getElem?_eq_getElem range
          simp only [hi, childAt_ok rfl here, ok_bind]
          split
          · next same =>
              refine ⟨some children[i], _, rfl, children.take i, children.drop (i + 1), ?_, ?_, same.symm⟩
              · rw [List.length_take, Nat.min_eq_left (Nat.le_of_lt range)]
              · rw [← List.drop_eq_getElem_cons range, List.take_append_drop]
          · next other =>
              split
              · next above => exact ih (h.right inc (code_at range) (by omega) above) (by omega)
              · next below => exact ih (h.left inc (code_at range) (by omega) (by omega)) (by omega)
      · next closed =>
          obtain ⟨gap, place⟩ := h.met (by omega)
          have located := located_gap nonneg gap
          cases last with
          | none =>
              refine ⟨none, mid, rfl, ?_⟩
              rwa [show mid = low from place]
          | some node =>
              refine ⟨none, _, rfl, ?_⟩
              split
              · next below => rwa [place.1 below]
              · next above => rwa [place.2 above]

end Search

/-! ## One node of a path -/

/-- A node that is the same to every search. -/
structure Kept (node node' : Node) : Prop where
  ordered : Ordered node'
  code : node'.code = node.code
  words : ∀ w, has node' w = has node w

/-- The set of words of a trie. -/
def Words (root : Node) (w : List Nat) : Prop := has root w = true

theorem Kept.trans {a b c : Node} (first : Kept a b) (second : Kept b c) : Kept a c :=
  ⟨second.ordered, second.code.trans first.code, fun w => (second.words w).trans (first.words w)⟩

theorem Kept.set {a b : Node} (h : Kept a b) : Words b = Words a :=
  funext fun w => congrArg (· = true) (h.words w)

theorem Ordered.here {node : Node} : Ordered node → Increasing (node.children.map Node.code)
  | .mk here _ => here

theorem Ordered.each {node : Node} : Ordered node → ∀ child ∈ node.children, Ordered child
  | .mk _ below => below

@[simp] theorem withChildren_children (node : Node) (children : List Node) :
    (node.withChildren children).children = children := rfl

@[simp] theorem withChildren_code (node : Node) (children : List Node) :
    (node.withChildren children).code = node.code := rfl

@[simp] theorem has_nil (node : Node) : has node [] = node.isend := rfl

theorem has_cons {node : Node} {c : Nat} {w : List Nat} :
    has node (c :: w) = ((lookup node.children c).map (has · w)).getD false := by
  rw [has]
  cases lookup node.children c <;> rfl

/-- Only the end mark and the children count. -/
theorem has_congr {node node' : Node} (children : node'.children = node.children)
    (isend : node'.isend = node.isend) (w : List Nat) : has node' w = has node w := by
  cases w with
  | nil => exact isend
  | cons c w => rw [has_cons, has_cons, children]

/-- The node with its child array allocated. -/
theorem allocated {node : Node} (h : Ordered node) :
    Kept node (node.withChildren node.children) where
  ordered := .mk h.here h.each
  code := rfl
  words := has_congr rfl rfl

section Split
variable {node child child' : Node} {l r : List Node}

theorem has_split (inc : Increasing ((l ++ child :: r).map Node.code))
    (split : node.children = l ++ child :: r) (c : Nat) (w : List Nat) : has node (c :: w) =
      if c = child.code then has child w else ((lookup (l ++ r) c).map (has · w)).getD false := by
  rw [has_cons, split, lookup_split inc]
  split_ifs <;> rfl

theorem codes_replace (same : child'.code = child.code) :
    (l ++ child' :: r).map Node.code = (l ++ child :: r).map Node.code := by
  rw [List.map_append, List.map_append, List.map_cons, List.map_cons, same]

theorem Ordered.replace (h : Ordered node) (split : node.children = l ++ child :: r)
    (same : child'.code = child.code) (below : Ordered child') :
    Ordered (node.withChildren (l ++ child' :: r)) := by
  have inc := h.here
  have each := h.each
  rw [split] at inc each
  refine .mk (by rwa [withChildren_children, codes_replace same]) fun other mem => ?_
  rcases List.mem_append.mp mem with left | rest
  · exact each other (List.mem_append_left _ left)
  · rcases List.mem_cons.mp rest with rfl | right
    · exact below
    · exact each other (List.mem_append_right _ (List.mem_cons_of_mem _ right))

theorem setChild_split {index : Int} (split : node.children = l ++ child :: r)
    (here : index = (l.length : Int)) :
    node.setChild index child' = node.withChildren (l ++ child' :: r) := by
  rw [Node.setChild, split, here, Int.toNat_natCast, List.set_append_right _ _ (Nat.le_refl _),
    Nat.sub_self]
  rfl

/-- Only the words through the child are new. -/
theorem has_setChild (h : Ordered node) (split : node.children = l ++ child :: r)
    (same : child'.code = child.code) (w : List Nat) :
    has (node.withChildren (l ++ child' :: r)) w =
      match w with
      | [] => node.isend
      | c :: w => if c = child.code then has child' w else has node (c :: w) := by
  have inc := h.here
  rw [split] at inc
  cases w with
  | nil => rfl
  | cons c w =>
      rw [has_split (by rwa [codes_replace same]) (withChildren_children _ _), same]
      simp only
      split
      · rfl
      · next other => rw [has_split inc split, if_neg other]

end Split

/-! ## The search and the insertion -/

theorem findChild_spec {parent : Node} (h : Ordered parent) (code : Nat) :
    ∃ found index, findChild parent code =
        .ok (parent.withChildren parent.children, found, index) ∧
      Located parent.children code found index := by
  have start := Bounds.start (parent.children.map Node.code) code
  rw [List.length_map] at start
  obtain ⟨found, index, ran, located⟩ : ∃ found index,
      searchLoop parent.children code (parent.children.length + 1) 0 0
        (parent.children.length - 1) none = .ok (found, index) ∧
      Located parent.children code found index :=
    searchLoop_spec h.here _ start (by omega)
  refine ⟨found, index, ?_, located⟩
  unfold findChild
  simp only [Node.withChildren, Node.children, Option.getD_some] at ran ⊢
  rw [ran]
  rfl

theorem lookup_gap {children : List Node} {code i : Nat}
    (gap : Gap (children.map Node.code) code i) : lookup children code = none := by
  refine Keyed.find_absent ?_
  rintro ⟨node, mem, rfl⟩
  exact gap.absent (List.mem_map_of_mem mem)

theorem newNode_ordered (code : Nat) : Ordered { newNode with code := code } :=
  .mk List.Pairwise.nil fun _ mem => absurd mem List.not_mem_nil

theorem has_newNode (code : Nat) (w : List Nat) : has { newNode with code := code } w = false := by
  cases w <;> rfl

/-- The child is there afterwards, and no word is gained or lost. -/
theorem insertChild_spec {parent : Node} (h : Ordered parent) (code : Nat) :
    ∃ parent' index l child r, insertChild parent code = .ok (parent', index) ∧
      index = (l.length : Int) ∧ parent'.children = l ++ child :: r ∧ child.code = code ∧
      parent'.isend = parent.isend ∧ Kept parent parent' := by
  obtain ⟨found, index, ran, l, r, here, located⟩ := findChild_spec h code
  unfold insertChild
  rw [ran, ok_bind]
  cases found with
  | some child =>
      exact ⟨_, index, l, child, r, rfl, here, located.1, located.2, rfl, allocated h⟩
  | none =>
      obtain ⟨split, gap⟩ := located
      refine ⟨_, index, l, { newNode with code := code }, r, rfl, here, ?_, rfl, rfl, ?_⟩
      · rw [withChildren_children, withChildren_children, split, here, Int.toNat_natCast,
          insertIdx_middle]
      · have grown := gap.increasing h.here
        rw [split] at grown
        rw [show code = Node.code { newNode with code := code } from rfl, ← List.map_insertIdx,
          insertIdx_middle] at grown
        have shown : ((parent.withChildren parent.children).withChildren
            ((parent.withChildren parent.children).children.insertIdx index.toNat
              { newNode with code := code })).children = l ++ { newNode with code := code } :: r := by
          rw [withChildren_children, withChildren_children, split, here, Int.toNat_natCast,
            insertIdx_middle]
        refine ⟨.mk (by rw [shown]; exact grown) ?_, rfl, fun w => ?_⟩
        · rw [shown]
          intro other mem
          rcases List.mem_append.mp mem with left | rest
          · exact h.each other (by rw [split]; exact List.mem_append_left _ left)
          · rcases List.mem_cons.mp rest with rfl | right
            · exact newNode_ordered code
            · exact h.each other (by rw [split]; exact List.mem_append_right _ right)
        · cases w with
          | nil => rfl
          | cons c w =>
              rw [has_split grown shown, has_newNode, @has_cons parent, ← split]
              split
              · next same =>
                  rw [show c = code from same, lookup_gap gap]
                  rfl
              · rfl

/-- The search found the child. -/
theorem findChild_found {parent : Node} (h : Ordered parent) (code : Nat) :
    (∃ index l child r, findChild parent code =
        .ok (parent.withChildren parent.children, some child, index) ∧
      index = (l.length : Int) ∧ parent.children = l ++ child :: r ∧ child.code = code) ∨
    (∃ index, findChild parent code = .ok (parent.withChildren parent.children, none, index) ∧
      ∀ w, has parent (code :: w) = false) := by
  obtain ⟨found, index, ran, l, r, here, located⟩ := findChild_spec h code
  cases found with
  | some child => exact .inl ⟨index, l, child, r, ran, here, located.1, located.2⟩
  | none =>
      obtain ⟨-, gap⟩ := located
      refine .inr ⟨index, ran, fun w => ?_⟩
      rw [has_cons, lookup_gap gap]
      rfl

/-! ## Words -/

section Words
variable {rest : List UInt8}

theorem setEnd_ordered {node : Node} (h : Ordered node) (isend : Bool) :
    Ordered { node with isend := isend } :=
  .mk h.here h.each

theorem has_setEnd {node : Node} (isend : Bool) (w : List Nat) :
    has { node with isend := isend } w = if w = [] then isend else has node w := by
  cases w with
  | nil => rfl
  | cons c w =>
      rw [if_neg (List.cons_ne_nil c w)]
      rfl

/-- The word is added; a word that does not decode to its end is added as far as it does. -/
theorem addLoop_spec {cs : List Nat} (codes : Codes cs) (stop : Stuck rest) (fuel : Nat)
    (enough : cs.length < fuel) {node : Node} (h : Ordered node) (child : Bool) :
    ∃ printed node', addLoop fuel node child (encodeAll cs ++ rest) = .ok (printed, node') ∧
      (printed = true ↔ charAt rest ≠ .ok 0) ∧ Ordered node' ∧ node'.code = node.code ∧
      ∀ w, has node' w = true ↔ has node w = true ∨ w = cs ∧ (child = true ∨ cs ≠ []) := by
  induction cs generalizing fuel node child with
  | nil =>
      obtain ⟨fuel, rfl⟩ := Nat.exists_eq_succ_of_ne_zero (Nat.ne_of_gt enough)
      have marked : ∃ node', node' = (if child then { node with isend := true } else node) ∧
          Ordered node' ∧ node'.code = node.code ∧
          ∀ w, has node' w = true ↔
            has node w = true ∨ w = [] ∧ (child = true ∨ ([] : List Nat) ≠ []) := by
        cases child with
        | false => exact ⟨node, rfl, h, rfl, fun w => by simp⟩
        | true =>
            refine ⟨{ node with isend := true }, rfl, setEnd_ordered h true, rfl, fun w => ?_⟩
            rw [has_setEnd]
            split <;> simp_all
      obtain ⟨node', same, ordered, code, words⟩ := marked
      rw [encodeAll_nil, List.nil_append, addLoop]
      rcases stop with zero | ⟨⟨b, byte⟩, malformed⟩
      · refine ⟨false, node', ?_, by simp [zero], ordered, code, words⟩
        rw [zero, ok_bind, if_pos rfl, same]
        rfl
      · by_cases zero : b = 0
        · refine ⟨false, node', ?_, by simp [byte, zero], ordered, code, words⟩
          rw [byte, ok_bind, if_pos zero, same]
          rfl
        · refine ⟨true, node', ?_, by simp [byte, zero], ordered, code, words⟩
          rw [byte, ok_bind, if_neg zero, malformed, ok_bind, same]
          rfl
  | cons c cs ih =>
      obtain ⟨fuel, rfl⟩ := Nat.exists_eq_succ_of_ne_zero (Nat.ne_of_gt (Nat.zero_lt_of_lt enough))
      have code := codes c List.mem_cons_self
      obtain ⟨b, byte, nonzero⟩ := charAt_encode (s := encodeAll cs ++ rest) code
      obtain ⟨parent, index, l, next, r, inserted, here, split, same, isend, kept⟩ :=
        insertChild_spec h c
      have next_ordered := kept.ordered.each next (by rw [split]; simp)
      obtain ⟨printed, next', ran, message, ordered', code', words⟩ :=
        ih codes.tail fuel (Nat.lt_of_succ_lt_succ enough) next_ordered true
      refine ⟨printed, parent.setChild index next', ?_, message, ?_, ?_, fun w => ?_⟩
      · rw [encodeAll_cons, List.append_assoc, addLoop, byte, ok_bind, if_neg nonzero,
          decode_encode code, ok_bind]
        simp only [inserted, ok_bind, List.drop_left]
        have found : parent.children[l.length]? = some next := by
          rw [split]
          simp
        rw [childAt_ok here found, ok_bind, ran]
        rfl
      · rw [setChild_split split here]
        exact kept.ordered.replace split code' ordered'
      · rw [setChild_split split here]
        exact kept.code
      · rw [setChild_split split here, has_setChild kept.ordered split code', ← kept.words w]
        cases w with
        | nil => simp
        | cons d w =>
            simp only
            split
            · next through =>
                have inc := kept.ordered.here
                rw [split] at inc
                rw [words, has_split inc split, if_pos through, through, same]
                simp
            · next other =>
                rw [same] at other
                simp [other]

/-- The mark of the word's last node is read and changed, if the word decodes to its end
and has a last node. -/
theorem getLastchild_spec (mark : Bool → Bool) (unmarked : mark false = false) {cs : List Nat}
    (codes : Codes cs) {ends : Bool} (stop : Stops ends rest) (fuel : Nat)
    (enough : cs.length < fuel) {node : Node} (h : Ordered node) (child : Bool) :
    ∃ found node', getLastchild mark fuel node child (encodeAll cs ++ rest) = .ok (found, node') ∧
      found.getD false = (ends && has node cs && (child || cs ≠ [])) ∧ Ordered node' ∧
      node'.code = node.code ∧
      ∀ w, has node' w = if ends = true ∧ w = cs ∧ (child = true ∨ cs ≠ []) then
        mark (has node cs) else has node w := by
  induction cs generalizing fuel node child with
  | nil =>
      obtain ⟨fuel, rfl⟩ := Nat.exists_eq_succ_of_ne_zero (Nat.ne_of_gt enough)
      rw [encodeAll_nil, List.nil_append, getLastchild]
      cases ends with
      | false =>
          obtain ⟨⟨b, byte, nonzero⟩, malformed⟩ := stop
          rw [byte, ok_bind, if_neg nonzero, malformed, ok_bind]
          exact ⟨none, node, rfl, rfl, h, rfl, fun w => by simp⟩
      | true =>
          rw [show charAt rest = .ok 0 from stop, ok_bind, if_pos rfl]
          cases child with
          | false => exact ⟨none, node, rfl, by simp, h, rfl, fun w => by simp⟩
          | true =>
              refine ⟨some node.isend, _, rfl, by simp, setEnd_ordered h _, rfl, fun w => ?_⟩
              rw [has_setEnd]
              simp
  | cons c cs ih =>
      obtain ⟨fuel, rfl⟩ := Nat.exists_eq_succ_of_ne_zero (Nat.ne_of_gt (Nat.zero_lt_of_lt enough))
      have code := codes c List.mem_cons_self
      obtain ⟨b, byte, nonzero⟩ := charAt_encode (s := encodeAll cs ++ rest) code
      rw [encodeAll_cons, List.append_assoc, getLastchild, byte, ok_bind, if_neg nonzero,
        decode_encode code, ok_bind]
      have kept := allocated h
      rcases findChild_found h c with ⟨index, l, next, r, ran, here, split, same⟩ | ⟨index, ran, absent⟩
      · have next_ordered := h.each next (by rw [split]; simp)
        obtain ⟨found, next', below, answer, ordered', code', words⟩ :=
          ih codes.tail fuel (Nat.lt_of_succ_lt_succ enough) next_ordered true
        have inc := h.here
        rw [split] at inc
        have through (w : List Nat) : has node (c :: w) = has next w := by
          rw [has_split inc split, if_pos same.symm]
        refine ⟨found, (node.withChildren node.children).setChild index next', ?_, ?_, ?_, ?_, fun w => ?_⟩
        · simp only [ran, ok_bind, List.drop_left, below]
          rfl
        · rw [answer, through]
          simp
        · rw [setChild_split (by rw [withChildren_children, split]) here]
          exact h.replace split code' ordered'
        · rw [setChild_split (by rw [withChildren_children, split]) here]
          rfl
        · rw [setChild_split (by rw [withChildren_children, split]) here, through]
          refine (has_setChild h split code' w).trans ?_
          cases w with
          | nil => simp
          | cons d w =>
              simp only
              split
              · next equal => rw [words, equal, same, through]; simp
              · next other =>
                  rw [same] at other
                  simp [other]
      · refine ⟨none, node.withChildren node.children, ?_, ?_, kept.ordered, kept.code, fun w => ?_⟩
        · simp only [ran, ok_bind]
          rfl
        · rw [absent, Bool.and_false]
          rfl
        · rw [kept.words, absent, unmarked]
          split
          · next equal => rw [equal.2.1, absent]
          · rfl

/-- The walk stops at the first word it comes to the end of. -/
theorem checkLoop_spec {cs : List Nat} (codes : Codes cs) (stop : Stuck rest) (fuel : Nat)
    (enough : cs.length < fuel) {node : Node} (h : Ordered node) (moved : Nat) :
    ∃ out node', checkLoop fuel node (encodeAll cs ++ rest) moved = .ok (out, node') ∧
      Kept node node' ∧
      match out with
      | some n => ∃ w, w ≠ [] ∧ w <+: cs ∧ has node w = true ∧ n = moved + (encodeAll w).length
      | none => ∀ w, w ≠ [] → w <+: cs → has node w = false := by
  induction cs generalizing fuel node moved with
  | nil =>
      obtain ⟨fuel, rfl⟩ := Nat.exists_eq_succ_of_ne_zero (Nat.ne_of_gt enough)
      refine ⟨none, node, ?_, ⟨h, rfl, fun _ => rfl⟩, fun w nonempty start => ?_⟩
      · rw [encodeAll_nil, List.nil_append, checkLoop]
        rcases stop with zero | ⟨⟨b, byte⟩, malformed⟩
        · rw [zero, ok_bind]
          rfl
        · rw [byte, ok_bind, malformed, ok_bind]
          split <;> rfl
      · exact absurd (List.prefix_nil.mp start) nonempty
  | cons c cs ih =>
      obtain ⟨fuel, rfl⟩ := Nat.exists_eq_succ_of_ne_zero (Nat.ne_of_gt (Nat.zero_lt_of_lt enough))
      have code := codes c List.mem_cons_self
      obtain ⟨b, byte, nonzero⟩ := charAt_encode (s := encodeAll cs ++ rest) code
      rw [encodeAll_cons, List.append_assoc, checkLoop, byte, ok_bind, if_neg nonzero,
        decode_encode code, ok_bind]
      have kept := allocated h
      rcases findChild_found h c with ⟨index, l, next, r, ran, here, split, same⟩ | ⟨index, ran, absent⟩
      · have inc := h.here
        rw [split] at inc
        have through (w : List Nat) : has node (c :: w) = has next w := by
          rw [has_split inc split, if_pos same.symm]
        by_cases ends : next.isend = true
        · refine ⟨some (moved + (encode c).length), node.withChildren node.children, ?_, kept, [c], ?_⟩
          · simp only [ran, ok_bind, ends, if_true]
            rfl
          · refine ⟨List.cons_ne_nil c [], List.prefix_append [c] cs, ?_, by simp⟩
            rw [through]
            exact ends
        · have next_ordered := h.each next (by rw [split]; simp)
          obtain ⟨out, next', below, inside, answer⟩ :=
            ih codes.tail fuel (Nat.lt_of_succ_lt_succ enough) next_ordered (moved + (encode c).length)
          refine ⟨out, (node.withChildren node.children).setChild index next', ?_, ⟨?_, ?_, fun w => ?_⟩, ?_⟩
          · simp only [ran, ok_bind, ends, List.drop_left, below]
            rfl
          · rw [setChild_split (by rw [withChildren_children, split]) here]
            exact h.replace split inside.code inside.ordered
          · rw [setChild_split (by rw [withChildren_children, split]) here]
            rfl
          · rw [setChild_split (by rw [withChildren_children, split]) here]
            refine (has_setChild h split inside.code w).trans ?_
            cases w with
            | nil => rfl
            | cons d w =>
                simp only
                split
                · next equal => rw [inside.words, equal, same, through]
                · rfl
          · cases out with
            | some n =>
                obtain ⟨w, -, start, word, length⟩ := answer
                refine ⟨c :: w, List.cons_ne_nil c w, List.cons_prefix_cons.mpr ⟨rfl, start⟩, ?_, ?_⟩
                · rw [through, word]
                · rw [length, encodeAll_cons, List.length_append, Nat.add_assoc]
            | none =>
                intro w nonempty start
                cases w with
                | nil => exact absurd rfl nonempty
                | cons d w =>
                    obtain ⟨rfl, later⟩ := List.cons_prefix_cons.mp start
                    rw [through]
                    by_cases last : w = []
                    · rw [last]
                      exact Bool.eq_false_iff.mpr ends
                    · exact answer w last later
      · refine ⟨none, node.withChildren node.children, ?_, kept, fun w nonempty start => ?_⟩
        · simp only [ran, ok_bind]
          rfl
        · cases w with
          | nil => exact absurd rfl nonempty
          | cons d w =>
              obtain ⟨rfl, -⟩ := List.cons_prefix_cons.mp start
              exact absent w

end Words

end Colinlib.Source.WordTrie
