import Colinlib.Guarantees.WheelStates

/-!
# Deleting a node

`cotw_del` tells a pending node from one that is not by its `next` link, which is the node
itself once it has left the wheel. `cotw_node_init` sets the link to null, and null is not
the node: a node that was initialised and not added is taken for a pending one, and its
null link is followed. For every other node the answer is right and the node alone is
taken out.
-/
namespace Colinlib.Guarantees.TimerRemoval
open Colinlib.Theory Colinlib.Theory.CMemory Colinlib.Theory.Links
open Colinlib.Source.TimingWheel Colinlib.Source.Clink
open Colinlib.Guarantees.TimerExactness Colinlib.Guarantees.WheelStates

/-- Added, and neither expired, deleted nor initialised since. -/
def Pending (hist : List Event) (n : Nat) : Prop := countdown hist n ≠ none

/-- The heads that have a list: the slots, and the head of the tick in progress. -/
def Listed (phase : Phase) (p : Ptr) : Prop :=
  IsSlot p ∨ phase = .draining ∧ p = .tickHead

/-- The node was in a list; it is taken out of it and is alone, and all else is kept. -/
structure Removes (phase : Phase) (tw : Cotw) (n : Nat) (tw' : Cotw) : Prop where
  was : ∃ p xs, Listed phase p ∧ Ring tw.links p xs ∧ .node n ∈ xs
  alone : Ring tw'.links (.node n) []
  lists : ∀ p xs, Listed phase p → Ring tw.links p xs → Ring tw'.links p (xs.erase (.node n))
  kept : tw' = { tw with links := tw'.links }

/-- A pending node is taken out, and one is returned; of any other node nothing is changed, and
zero is returned. -/
def DeletesExactly (phase : Phase) (w : World) (n : Nat) : Prop :=
  ∃ r tw', cotwDel w.1 n = .ok (r, tw') ∧
    (Pending w.2 n ∧ r = 1 ∧ Removes phase w.1 n tw' ∨ ¬ Pending w.2 n ∧ r = 0 ∧ tw' = w.1)

/-- What `next` links lead to from a head is one list. -/
theorem chain_unique {L : Mem Ptr} {a h : Ptr} {xs ys : List Ptr}
    (one : List.IsChain (Joined L) (a :: xs ++ [h])) (other : List.IsChain (Joined L) (a :: ys ++ [h]))
    (notOne : h ∉ xs) (notOther : h ∉ ys) : xs = ys := by
  induction xs generalizing a ys with
  | nil =>
      have next := (List.isChain_cons_cons.mp one).1.1
      cases ys with
      | nil => rfl
      | cons y ys =>
          have same := (List.isChain_cons_cons.mp other).1.1
          rw [next, Option.some.injEq] at same
          exact absurd (same ▸ List.mem_cons_self) notOther
  | cons x xs ih =>
      obtain ⟨step, rest⟩ := List.isChain_cons_cons.mp one
      cases ys with
      | nil =>
          have same := (List.isChain_cons_cons.mp other).1.1
          rw [step.1, Option.some.injEq] at same
          exact absurd (same ▸ List.mem_cons_self) notOne
      | cons y ys =>
          obtain ⟨step', rest'⟩ := List.isChain_cons_cons.mp other
          have same := step'.1
          rw [step.1, Option.some.injEq] at same
          subst same
          rw [ih rest rest' (fun mem => notOne (List.mem_cons_of_mem _ mem))
            fun mem => notOther (List.mem_cons_of_mem _ mem)]

theorem ring_unique {L : Mem Ptr} {h : Ptr} {xs ys : List Ptr} (one : Ring L h xs)
    (other : Ring L h ys) : xs = ys :=
  chain_unique one.chain other.chain (List.nodup_cons.mp one.distinct).1
    (List.nodup_cons.mp other.distinct).1

section Del
variable {phase : Phase} {w : World} {n : Nat}

theorem shape_listed {shape : Shape Ptr} {fit : Ptr → Nat → Nat → Prop}
    (stored : Stored w.1 shape (countdown w.2) fit) (allowed : phase.Allows (shape .tickHead))
    {p : Ptr} (listed : Listed phase p) : ∃ xs, shape p = some xs := by
  rcases listed with slot | ⟨rfl, rfl⟩
  · exact stored.slots p slot
  · exact allowed

/-- A node of the wheel is in a list, once `fit` leaves no other place. -/
theorem listed_of_member {shape : Shape Ptr} (stored : Stored w.1 shape (countdown w.2) Settled)
    (vacant : Vacant shape .cascadeHead) (allowed : phase.Allows (shape .tickHead)) {p : Ptr}
    {xs : List Ptr} (list : shape p = some xs) (mem : .node n ∈ xs) : Listed phase p := by
  obtain ⟨m, node, r, -, -, -, -, stamped, fits, -⟩ := stored.member p xs _ list mem
  cases p with
  | root i => exact .inl (fits.1 ▸ Nat.mod_lt _ (by decide))
  | tv k j => exact .inl ⟨fits.1, fits.2.1 ▸ Nat.mod_lt _ (by decide)⟩
  | cascadeHead => exact absurd (vacant xs list ▸ mem) List.not_mem_nil
  | tickHead =>
      cases phase with
      | between => exact absurd (allowed xs list ▸ mem) List.not_mem_nil
      | draining => exact .inr ⟨rfl, rfl⟩
  | node m => exact fits.elim

theorem del_pending_exact (h : Orderly phase w) (pending : Pending w.2 n) :
    DeletesExactly phase w n := by
  obtain ⟨r, left⟩ := Option.ne_none_iff_exists'.mp pending
  obtain ⟨shape, stored, vacant, allowed⟩ := h.tracks.stored
  obtain ⟨p, xs, list, mem⟩ := stored.linked n r left
  obtain ⟨links', shape', removed, stored', lists, -, alone⟩ := stored.unlink left
  have linked : coclinkIsEmpty w.1.links (.node n) = false := coclinkIsEmpty_node stored.rings list mem
  refine ⟨1, { w.1 with links := links' }, ?_, .inl ⟨pending, rfl, ?_⟩⟩
  · rw [cotwDel, linked, Bool.not_false, if_pos rfl, removed]
    rfl
  · refine ⟨⟨p, xs, listed_of_member stored vacant allowed list mem, stored.rings.ring list, mem⟩,
      stored'.rings.ring alone, fun q ys listed ring => ?_, rfl⟩
    obtain ⟨zs, here⟩ := shape_listed stored allowed listed
    rw [ring_unique ring (stored.rings.ring here)]
    refine stored'.rings.ring (lists q zs ?_ here)
    rintro rfl
    rcases listed with slot | ⟨-, no⟩
    · exact slot
    · cases no

theorem del_idle_exact (h : Orderly phase w) (inside : n < w.1.nodes.length)
    (gone : ¬ Pending w.2 n) (was : added w.2 n = true) : DeletesExactly phase w n := by
  obtain ⟨shape, stored, -, -⟩ := h.tracks.stored
  have linked : w.1.links.next (.node n) ≠ none := fun null => by
    rw [(h.null n).mp null] at was
    cases was
  exact ⟨0, w.1, stored.del_linked inside (not_not.mp gone) linked, .inr ⟨gone, rfl, rfl⟩⟩

/-- A node with null links is not told from a pending one. -/
theorem del_never_added (h : Orderly phase w) (never : added w.2 n = false) :
    cotwDel w.1 n = .error .nullPointer := by
  have null := (h.null n).mpr never
  have taken : coclinkIsEmpty w.1.links (.node n) = false := by
    rw [coclinkIsEmpty, null]
    rfl
  rw [cotwDel, taken, Bool.not_false, if_pos rfl, coclinkRemote, null]
  rfl

end Del

/-- In every state of every run, inside callbacks too, and for every node that was
initialised: the node is deleted exactly if and only if it was added since. -/
theorem del_total_and_exact (interval currtime : Nat) (currtick : UInt32) (phase : Phase)
    (w : World) (reached : Reached interval currtime currtick phase w) (n : Nat)
    (prepared : n < w.1.nodes.length) :
    DeletesExactly phase w n ↔ added w.2 n = true := by
  have orderly := reached.orderly
  constructor
  · rintro ⟨r, tw', deleted, -⟩
    by_contra never
    rw [del_never_added orderly (Bool.eq_false_of_not_eq_true never)] at deleted
    cases deleted
  · intro was
    by_cases pending : Pending w.2 n
    · exact del_pending_exact orderly pending
    · exact del_idle_exact orderly prepared pending was

/-- A new wheel, one node initialised. -/
def prepared : World :=
  (cotwNodeInit (start 10 0 0).1 0 (some 1) 0, [.init 0 (some 1) 0])

theorem prepared_reached : Reached 10 0 0 .between prepared := by
  have called : userStep (start 10 0 0) (.init 0 (some 1) 0) = .ok prepared := rfl
  exact .user .start called

set_option maxRecDepth 20000 in
theorem del_total_and_exact_pending : ∃ w, userStep prepared (.add 0 5) = .ok w ∧
    Reached 10 0 0 .between w ∧ 0 < w.1.nodes.length ∧ DeletesExactly .between w 0 := by
  obtain ⟨w, called, inside, was⟩ : ∃ w, userStep prepared (.add 0 5) = .ok w ∧
      0 < w.1.nodes.length ∧ added w.2 0 = true := ⟨_, rfl, Nat.zero_lt_one, rfl⟩
  have reached : Reached 10 0 0 .between w := .user prepared_reached called
  exact ⟨w, called, reached, inside,
    (del_total_and_exact 10 0 0 .between w reached 0 inside).mpr was⟩

/-- `cotw_del` of the node that was only initialised follows its null link. -/
theorem prepared_node_faults : Reached 10 0 0 .between prepared ∧
    cotwDel prepared.1 0 = .error .nullPointer ∧ ¬ DeletesExactly .between prepared 0 := by
  have faults := del_never_added prepared_reached.orderly (n := 0) rfl
  refine ⟨prepared_reached, faults, ?_⟩
  rintro ⟨r, tw', deleted, -⟩
  rw [faults] at deleted
  cases deleted

end Colinlib.Guarantees.TimerRemoval
