import Colinlib.Source.SetDelete
import Mathlib.Data.List.Nodup

/-!
# Iteration over the set, and the operations on two sets

The successor of a node is the first node of its right subtree, or the nearest node above
that it is left of; the predecessor is the same with the sides exchanged. Both follow the
order of the entries.
-/
namespace Colinlib.Source.Set
open Colinlib.Theory Colinlib.Theory.CMemory Colinlib.Theory.RedBlack
open Colinlib.Theory.RedBlack.ColorTree

variable {α : Type}

/-- The loop of `_coset_smallest` for `side = left`, of `_coset_largest` for `side = right`. -/
def edgeLoop (side : Side) (set : Coset α) : Nat → Ref → Except Fault Ref
  | 0, _ => .error .starved
  | fuel + 1, curr => do
    let next ← getChild side set curr
    if next = .nil then .ok curr else edgeLoop side set fuel next

def cosetLargest (set : Coset α) (curr : Ref) : Except Fault Ref :=
  edgeLoop .right set (fuel set) curr

def edge (side : Side) (set : Coset α) (curr : Ref) : Except Fault Ref :=
  match side with
  | .left => cosetSmallest set curr
  | .right => cosetLargest set curr

/-- `while (up != set->nil && curr == up->right)` for `side = right`. -/
def climbLoop (side : Side) (set : Coset α) : Nat → Ref → Ref → Except Fault Ref
  | 0, _, _ => .error .starved
  | fuel + 1, curr, up =>
    if up = .nil then .ok up else do
      let child ← getChild side set up
      if curr = child then do
        let next ← getParent set up
        climbLoop side set fuel up next
      else .ok up

/-- `_coset_successor` for `side = right`, `_coset_predecessor` for `side = left`. -/
def neighbour (side : Side) (set : Coset α) (curr : Ref) : Except Fault Ref := do
  let child ← getChild side set curr
  if child ≠ .nil then edge side.flip set child else do
    let up ← getParent set curr
    climbLoop side set (fuel set) curr up

def cosetSuccessor (set : Coset α) (curr : Ref) : Except Fault Ref := neighbour .right set curr

def cosetPredecessor (set : Coset α) (curr : Ref) : Except Fault Ref := neighbour .left set curr

/-- `curr == set->nil ? NULL : curr`. -/
def orNull (curr : Ref) : Option Ref := if curr = .nil then none else some curr

/-- `coset_begin` for `side = left`, `coset_end` for `side = right`. -/
def outermost (side : Side) (set : Coset α) : Except Fault (Option Ref) :=
  if set.root ≠ .nil then do
    let curr ← edge side set set.root
    .ok (orNull curr)
  else .ok none

def cosetBegin (set : Coset α) : Except Fault (Option Ref) := outermost .left set

def cosetEnd (set : Coset α) : Except Fault (Option Ref) := outermost .right set

def cosetNext (set : Coset α) (curr : Ref) : Except Fault (Option Ref) := do
  let curr ← cosetSuccessor set curr
  .ok (orNull curr)

def cosetPrev (set : Coset α) (curr : Ref) : Except Fault (Option Ref) := do
  let curr ← cosetPredecessor set curr
  .ok (orNull curr)

/-! The loops below are given one step for every element, and what they are given for
`other` is the second set, or nothing where it is the first one again. -/

def clearLoop : Nat → Coset α → Option Ref → Except Fault (Coset α)
  | _, set, none => .ok set
  | 0, _, some _ => .error .starved
  | fuel + 1, set, some curr => do
    let next ← cosetNext set curr
    let set ← cosetDelete set (← getData set curr)
    clearLoop fuel set next

def cosetClear (set : Coset α) : Except Fault (Coset α) := do
  let curr ← cosetBegin set
  clearLoop (fuel set) set curr

def unionLoop (other : Option (Coset α)) : Nat → Coset α → Option Ref → Except Fault (Coset α)
  | _, set, none => .ok set
  | 0, _, some _ => .error .starved
  | fuel + 1, set, some curr => do
    let set ← cosetAdd set (← getData (other.getD set) curr)
    let next ← cosetNext (other.getD set) curr
    unionLoop other fuel set next

def cosetUnion (set : Coset α) (other : Option (Coset α)) : Except Fault (Coset α) := do
  let curr ← cosetBegin (other.getD set)
  unionLoop other (fuel (other.getD set)) set curr

/-- The body of the loop of `coset_intersect`. -/
def intersectStep (other : Option (Coset α)) (set : Coset α) (curr : Ref) :
    Except Fault (Coset α × Option Ref) := do
  let next ← cosetNext set curr
  let exist ← cosetExist (other.getD set) (← getData set curr)
  if exist then .ok (set, next) else do
    let set ← cosetDelete set (← getData set curr)
    .ok (set, next)

def intersectLoop (other : Option (Coset α)) :
    Nat → Coset α → Option Ref → Except Fault (Coset α)
  | _, set, none => .ok set
  | 0, _, some _ => .error .starved
  | fuel + 1, set, some curr => do
    let (set, next) ← intersectStep other set curr
    intersectLoop other fuel set next

def cosetIntersect (set : Coset α) (other : Option (Coset α)) : Except Fault (Coset α) := do
  let curr ← cosetBegin set
  intersectLoop other (fuel set) set curr

def minusLoop (other : Option (Coset α)) : Nat → Coset α → Option Ref → Except Fault (Coset α)
  | _, set, none => .ok set
  | 0, _, some _ => .error .starved
  | fuel + 1, set, some curr => do
    let set ← cosetDelete set (← getData (other.getD set) curr)
    let next ← cosetNext (other.getD set) curr
    minusLoop other fuel set next

def cosetMinus (set : Coset α) (other : Option (Coset α)) : Except Fault (Coset α) := do
  let curr ← cosetBegin (other.getD set)
  minusLoop other (fuel (other.getD set)) set curr

/-- A caller's loop over the set: the nodes it comes to, one step allowed for each. -/
def walk (step : Coset α → Ref → Except Fault (Option Ref)) (set : Coset α) :
    Nat → Option Ref → Except Fault (List Ref)
  | _, none => .ok []
  | 0, some _ => .error .starved
  | fuel + 1, some curr => do
    let next ← step set curr
    let rest ← walk step set fuel next
    .ok (curr :: rest)

/-! ## The loops follow the order -/

section Steps
variable {set : Coset α} {path : Path (Nat × α)} {t : ATree α} {s : Side}

theorem smallestLoop_eq (set : Coset α) (n : Nat) (curr : Ref) :
    smallestLoop set n curr = edgeLoop .left set n curr := by
  induction n generalizing curr with
  | zero => rfl
  | succ n ih =>
      rw [smallestLoop, edgeLoop]
      congr 1
      funext next
      rw [ih]

theorem edge_eq (s : Side) (set : Coset α) (curr : Ref) :
    edge s set curr = edgeLoop s set (fuel set) curr := by
  cases s with
  | left => exact smallestLoop_eq set (fuel set) curr
  | right => rfl

/-- The outermost node on a side is the first in the order that ends on the other side. -/
theorem edgeLoop_spec (s : Side) (n : Nat) {path : Path (Nat × α)} {t : ATree α}
    (h : Heap set (plug path t)) (real : t ≠ .leaf) (enough : t.height < n) :
    ∃ e, edgeLoop s set n (ref t) = .ok (.node e.1) ∧ (inOrder s.flip t).head? = some e := by
  induction n generalizing path t with
  | zero => exact absurd enough (Nat.not_lt_zero _)
  | succ n ih =>
      obtain ⟨near, e, far, shape⟩ := exists_join s real
      rw [shape] at h ⊢
      have order := inOrder_join s t.color near e far
      have shorter : near.height < n := by
        rw [shape] at enough
        cases s <;> simp only [join, ColorTree.height] at enough <;> omega
      rw [edgeLoop, ref_join, h.getNear, ok_bind, order]
      by_cases empty : near = .leaf
      · subst empty
        refine ⟨e, if_pos rfl, ?_⟩
        cases s <;> rfl
      · have focus : Heap set (plug (⟨s, t.color, e, far⟩ :: path) near) := h
        obtain ⟨e', run, first⟩ := ih focus empty shorter
        refine ⟨e', (if_neg (mt ref_eq_nil.mp empty)).trans run, ?_⟩
        rw [List.head?_append, first, Option.some_or]

/-- A pointer to a node, or to the sentinel where there is none. -/
def toRef (e : Option (Nat × α)) : Ref :=
  match e with
  | none => .nil
  | some e => .node e.1

/-- From a hole the climb ends at the nearest node past it. -/
theorem climbLoop_spec (s : Side) (n : Nat) {path : Path (Nat × α)} {t : ATree α}
    (h : Heap set (plug path t)) (real : t ≠ .leaf) (enough : path.length < n) :
    climbLoop s set n (ref t) (parentRef path) = .ok (toRef (beyond s path).head?) := by
  induction n generalizing path t with
  | zero => exact absurd enough (Nat.not_lt_zero _)
  | succ n ih =>
      cases path with
      | nil => exact if_pos rfl
      | cons f rest =>
          obtain ⟨g, c, e, other⟩ := f
          have node : Heap set (plug rest (join g c t e other)) := h
          have here : parentRef (⟨g, c, e, other⟩ :: rest) = .node e.1 := rfl
          rw [climbLoop, here, if_neg (by simp)]
          by_cases same : g = s
          · subst same
            have up := ih node (by cases g <;> simp [join]) (Nat.lt_of_succ_lt_succ enough)
            rw [ref_join] at up
            rw [node.getNear, ok_bind, if_pos rfl, node.joinParent, ok_bind, up, beyond, if_pos rfl]
          · obtain rfl := eq_flip_of_ne (Ne.symm same)
            rw [node.getFar, ok_bind, if_neg (node.ref_ne real), beyond,
              if_neg (by simpa using same)]
            rfl

/-- The neighbour at a focus. -/
theorem neighbour_focus {c : Color} {near far : ATree α} {e : Nat × α} {t : ATree α}
    (v : set.size = t.entries.length) (h : Heap set t)
    (focus : t = plug path (join s c near e far)) :
    neighbour s.flip set (.node e.1) =
      .ok (toRef (inOrder s.flip far ++ beyond s.flip path).head?) := by
  subst focus
  have long := length_path_le path (join s c near e far)
  rw [neighbour, h.getFar, ok_bind]
  by_cases empty : far = .leaf
  · subst empty
    have none : inOrder s.flip (.leaf : ATree α) = [] := by cases s <;> rfl
    have climb := climbLoop_spec s.flip (fuel set) h (by cases s <;> simp [join])
      (by unfold fuel; omega)
    rw [ref_join] at climb
    rw [if_neg (by simp [ref]), h.joinParent, ok_bind, none, List.nil_append, climb]
  · have sub : Heap set (plug (⟨s.flip, c, e, near⟩ :: path) far) := by
      rw [← plug_other]
      exact h
    have low : far.height < fuel set := by
      have high := height_le_entries far
      have inside : far.entries.length ≤ (plug path (join s c near e far)).entries.length := by
        rw [entries_plug]
        cases s <;> simp only [join, entries, List.length_append, List.length_cons] <;> omega
      unfold fuel
      omega
    obtain ⟨e', run, first⟩ := edgeLoop_spec s (fuel set) sub empty low
    rw [if_pos (mt ref_eq_nil.mp empty), RedBlack.flip_flip, edge_eq, run, List.head?_append, first,
      Option.some_or]
    rfl

end Steps

section Order
variable {set : Coset α} {t : ATree α}

theorem Heap.nodup_inOrder (h : Heap set t) (s : Side) : (inOrder s t).Nodup := by
  have once : t.entries.Nodup := List.Nodup.of_map Prod.fst h.distinct
  cases s with
  | left => exact List.pairwise_reverse.mpr (once.imp Ne.symm)
  | right => exact once

/-- An element that is there once is in one place. -/
theorem split_unique {β : Type} {xs xs' ys ys' : List β} {e : β} (once : (xs ++ e :: ys).Nodup)
    (same : xs ++ e :: ys = xs' ++ e :: ys') : xs = xs' ∧ ys = ys' := by
  have new := (List.nodup_cons.mp (List.nodup_middle.mp once)).1
  induction xs generalizing xs' with
  | nil =>
      cases xs' with
      | nil => exact ⟨rfl, (List.cons.inj same).2⟩
      | cons x rest =>
          obtain ⟨rfl, later⟩ := List.cons.inj same
          exact absurd (by simp [later]) new
  | cons x rest ih =>
      cases xs' with
      | nil =>
          obtain ⟨rfl, -⟩ := List.cons.inj same
          exact absurd (by simp) new
      | cons x' rest' =>
          obtain ⟨rfl, later⟩ := List.cons.inj same
          obtain ⟨rfl, rfl⟩ := ih (List.nodup_cons.mp once).2 later
            (fun hm => new (List.mem_cons_of_mem _ hm))
          exact ⟨rfl, rfl⟩

/-- The neighbour of a node is the next one in the order. -/
theorem neighbour_spec (v : Valid set t) (s : Side) {xs ys : List (Nat × α)} {e : Nat × α}
    (order : inOrder s t = xs ++ e :: ys) : neighbour s set (.node e.1) = .ok (toRef ys.head?) := by
  have mem : e ∈ t.entries := by
    have there : e ∈ inOrder s t := by simp [order]
    cases s with
    | left => exact List.mem_reverse.mp there
    | right => exact there
  obtain ⟨path, c, near, far, focus⟩ := exists_focus s.flip mem
  have step := neighbour_focus v.size v.heap focus
  obtain ⟨xs', order'⟩ := inOrder_plug s.flip path c near far e
  rw [RedBlack.flip_flip] at step order'
  rw [← focus] at order'
  have nodup := v.heap.nodup_inOrder s
  rw [order] at nodup
  rw [step, (split_unique nodup (order.symm.trans order')).2]

/-- The node of an entry, or `NULL`. -/
def toNode (e : Option (Nat × α)) : Option Ref := e.map fun e => .node e.1

theorem orNull_toRef (e : Option (Nat × α)) : orNull (toRef e) = toNode e := by
  cases e <;> rfl

theorem outermost_spec (v : Valid set t) (s : Side) :
    outermost s set = .ok (toNode (inOrder s.flip t).head?) := by
  have root := v.heap.root
  unfold outermost
  by_cases empty : t = .leaf
  · subst empty
    rw [root, if_neg (by simp [ref])]
    cases s <;> rfl
  · obtain ⟨e, run, first⟩ := @edgeLoop_spec α set s (fuel set) [] t v.heap empty v.height_lt
    rw [root, if_pos (mt ref_eq_nil.mp empty), edge_eq, run, first]
    rfl

theorem cosetNext_spec (v : Valid set t) {xs ys : List (Nat × α)} {e : Nat × α}
    (order : t.entries = xs ++ e :: ys) : cosetNext set (.node e.1) = .ok (toNode ys.head?) := by
  rw [cosetNext, cosetSuccessor, neighbour_spec v .right order, ok_bind, orNull_toRef]

theorem cosetPrev_spec (v : Valid set t) {xs ys : List (Nat × α)} {e : Nat × α}
    (order : t.entries = xs ++ e :: ys) : cosetPrev set (.node e.1) = .ok (toNode xs.getLast?) := by
  have reversed : inOrder .left t = ys.reverse ++ e :: xs.reverse := by simp [inOrder, order]
  rw [cosetPrev, cosetPredecessor, neighbour_spec v .left reversed, ok_bind, orNull_toRef,
    List.head?_reverse]

/-- A loop that steps from each entry to the next comes to all of them. -/
theorem walk_spec {step : Coset α → Ref → Except Fault (Option Ref)} {order : List (Nat × α)}
    (steps : ∀ xs e ys, order = xs ++ e :: ys → step set (.node e.1) = .ok (toNode ys.head?))
    {xs ys : List (Nat × α)} (split : order = xs ++ ys) {n : Nat} (enough : ys.length ≤ n) :
    walk step set n (toNode ys.head?) = .ok (ys.map fun e => .node e.1) := by
  induction ys generalizing xs n with
  | nil => cases n <;> rfl
  | cons e rest ih =>
      cases n with
      | zero => cases enough
      | succ n =>
          have later := @ih (xs ++ [e]) (by simp [split]) n (Nat.le_of_succ_le_succ enough)
          rw [List.head?_cons, toNode, Option.map_some, walk, steps xs e rest split, ok_bind, later]
          rfl

end Order

section Allocation
variable {set set' : Coset α} {t t' : ATree α} {x : Nat × α}

/-- A set between operations, with no node but those of its tree. -/
structure Sound (set : Coset α) (t : ATree α) : Prop extends Valid set t where
  exact : ∀ a, (set.nodes a).isSome ↔ a ∈ addrs t

theorem cosetNew_sound (fn : α → α → Int) : Sound (cosetNew fn) .leaf where
  toValid := cosetNew_valid fn
  exact a := by simp [cosetNew, addrs, entries]

theorem Holds.isSome {nodes : Nat → Option (Node α)} {p : Ref} (h : Holds nodes t p) {a : Nat}
    (there : a ∈ addrs t) : (nodes a).isSome := by
  induction t generalizing p with
  | leaf => cases there
  | node c l e r ihl ihr =>
      rcases (addrs_join .left c l e r a).mp there with hl | rfl | hr
      · exact ihl h.2.1 hl
      · rw [h.1]
        rfl
      · exact ihr h.2.2 hr

theorem Sound.absent (h : Sound set t) {a : Nat} (out : a ∉ addrs t) : set.nodes a = none :=
  Option.not_isSome_iff_eq_none.mp (mt (h.exact a).mp out)

/-- What a deletion frees was a node of the tree, and all other nodes stay. -/
theorem Removal.freed (h : Removal set set' x t t') : ∃ gone, Freed set set' gone (addrs t') ∧
    ∀ a, a ∈ addrs t → a ≠ gone → a ∈ addrs t' := by
  cases h with
  | self sole old new freed =>
      refine ⟨x.1, freed, fun a ha ne => ?_⟩
      simp only [addrs, old, new, List.map_append, List.map_cons, List.mem_append,
        List.mem_cons] at ha ⊢
      exact ha.imp_right fun hr => hr.resolve_left ne
  | @successor l d r both old new freed =>
      refine ⟨d.1, freed, fun a ha ne => ?_⟩
      simp only [addrs, old, new, List.map_append, List.map_cons, List.mem_append,
        List.mem_cons] at ha ⊢
      exact ha.imp_right fun hr => hr.imp_right fun hr => hr.resolve_left ne

theorem Deleted.sound (h : Deleted set set' x t t') (s : Sound set t) : Sound set' t' where
  toValid := h.valid s.toValid
  exact a := by
    refine ⟨fun used => ?_, h.heap.holds.isSome⟩
    obtain ⟨gone, freed, stays⟩ := h.removal.freed
    by_contra out
    by_cases same : a = gone
    · rw [same, freed.gone] at used
      cases used
    · rw [freed.outside a out same] at used
      exact out (stays a ((s.exact a).mp used) same)

theorem cosetAdd_sound (hc : Consistent set.fnComp) (s : Sound set t) (data : α) :
    UnlessOverflow (cosetAdd set data) (fun set' => set'.fnComp = set.fnComp ∧ ∃ t', Sound set' t' ∧
      ((set' = set ∧ t' = t ∧ ∃ x ∈ t.entries, set.fnComp data x.2 = 0) ∨
        ∃ l r, t.entries = l ++ r ∧ t'.entries = l ++ (set.next, data) :: r)) := by
  refine (cosetAdd_spec hc s.toValid data).mono ?_
  rintro set' ⟨comp, t', v', ⟨rfl, rfl, found⟩ | ⟨l, r, old, new, outside⟩⟩
  · exact ⟨comp, t', s, .inl ⟨rfl, rfl, found⟩⟩
  · refine ⟨comp, t', ⟨v', fun a => ⟨fun used => ?_, v'.heap.holds.isSome⟩⟩, .inr ⟨l, r, old, new⟩⟩
    by_contra out
    rw [outside a out] at used
    have there := (s.exact a).mp used
    simp only [addrs, old, new, List.map_append, List.map_cons, List.mem_append,
      List.mem_cons] at there out
    exact out (there.imp_right .inr)

theorem entries_nil (h : t.entries = []) : t = .leaf := by
  cases t with
  | leaf => rfl
  | node => simp [entries] at h

/-- The first node in order has nothing on its left. -/
theorem sole_first (h : Heap set t) {e : Nat × α} {ys : List (Nat × α)}
    (order : t.entries = e :: ys) : Sole set (.node e.1) := by
  obtain ⟨path, c, l, r, rfl⟩ := exists_focus .left (show e ∈ t.entries by simp [order])
  refine (sole_iff h).mpr (.inl ?_)
  have nodup := h.nodup_inOrder .right
  have split : (plug path (join .left c l e r)).entries =
      (before path ++ l.entries) ++ e :: (r.entries ++ after path) := by
    rw [entries_plug]
    simp [join, entries]
  have once : ([] ++ e :: ys).Nodup := order ▸ nodup
  have first := (split_unique once (order.symm.trans split)).1
  exact entries_nil (List.append_eq_nil_iff.mp first.symm).2

end Allocation

end Colinlib.Source.Set
