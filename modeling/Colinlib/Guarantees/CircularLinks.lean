import Colinlib.Source.Clink
import Colinlib.Theory.Runs

/-!
# Circular links as lists

What the operations of `co_clink.h` do to a collection of disjoint rings, in any order: each
is one change of one or two lists.
-/
namespace Colinlib.Guarantees.CircularLinks
open Colinlib.Theory Colinlib.Theory.CMemory Colinlib.Theory.Links Colinlib.Source.Clink

variable {α : Type}

inductive Op (α : Type) where
  | init (head : α)
  | addFront (head node : α)
  | addBack (head node : α)
  | remote (node : α)
  | splice (head1 head2 : α)
  deriving DecidableEq, Repr

variable [DecidableEq α]

def step (L : Mem α) : Op α → Except Fault (Mem α)
  | .init head => .ok (coclinkInit L head)
  | .addFront head node => coclinkAddFront L head node
  | .addBack head node => coclinkAddBack L head node
  | .remote node => coclinkRemote L node
  | .splice head1 head2 => coclinkSplice L head1 head2

/-- What an operation is for, on lists. A node that is added is in no ring, except perhaps
alone in its own, which it leaves; a node that was removed is alone in its own. -/
inductive Changes : Shape α → Op α → Shape α → Prop
  | init {shape : Shape α} {x : α} (fresh : Loose shape x) :
      Changes shape (.init x) (Function.update shape x (some []))
  | addFront {shape : Shape α} {h x : α} {xs : List α} (ring : shape h = some xs)
      (unlinked : Loose shape x) (other : h ≠ x) : Changes shape (.addFront h x)
        (Function.update (Function.update shape x none) h (some (x :: xs)))
  | addBack {shape : Shape α} {h x : α} {xs : List α} (ring : shape h = some xs)
      (unlinked : Loose shape x) (other : h ≠ x) : Changes shape (.addBack h x)
        (Function.update (Function.update shape x none) h (some (xs ++ [x])))
  | linked {shape : Shape α} {h x : α} {l r : List α} (ring : shape h = some (l ++ x :: r)) :
      Changes shape (.remote x)
        (Function.update (Function.update shape h (some (l ++ r))) x (some []))
  | alone {shape : Shape α} {x : α} (ring : shape x = some []) : Changes shape (.remote x) shape
  | splice {shape : Shape α} {h₁ h₂ : α} {xs ys : List α} (ring₁ : shape h₁ = some xs)
      (ring₂ : shape h₂ = some ys) (other : h₁ ≠ h₂) : Changes shape (.splice h₁ h₂)
        (Function.update (Function.update shape h₁ (some [])) h₂ (some (xs ++ ys)))

/-- Operations one after the other. -/
inductive Follows : Shape α → List (Op α) → Shape α → Prop
  | done (shape : Shape α) : Follows shape [] shape
  | next {shape shape' shape'' : Shape α} {op : Op α} {rest : List (Op α)}
      (change : Changes shape op shape') (later : Follows shape' rest shape'') :
      Follows shape (op :: rest) shape''

variable {L : Mem α} {shape shape' : Shape α}

/-- The memory has these rings, and the test for emptiness tells which of them have nodes. -/
structure Shows (L : Mem α) (shape : Shape α) : Prop where
  rings : Rings L shape
  empty : ∀ h xs, shape h = some xs → (coclinkIsEmpty L h = true ↔ xs = [])

theorem Shows.of_rings (rings : Rings L shape) : Shows L shape :=
  ⟨rings, fun _ _ ring => coclinkIsEmpty_iff rings ring⟩

/-- Every operation does to the memory what it is for. -/
theorem step_changes {op : Op α} (rings : Rings L shape) (change : Changes shape op shape') :
    ∃ L', step L op = .ok L' ∧ Rings L' shape' := by
  cases change with
  | init fresh => exact ⟨_, rfl, coclinkInit_rings rings fresh⟩
  | addFront ring unlinked other => exact coclinkAddFront_spec rings ring unlinked other
  | addBack ring unlinked other =>
      obtain ⟨L', ran, kept, -⟩ := coclinkAddBack_spec rings ring unlinked other
      exact ⟨L', ran, kept⟩
  | linked ring =>
      obtain ⟨L', ran, kept, -⟩ := coclinkRemote_spec rings ring
      exact ⟨L', ran, kept⟩
  | alone ring =>
      obtain ⟨L', ran, same⟩ := coclinkRemote_alone (rings.ring ring)
      exact ⟨L', ran, fun here => (rings.ring here).frame fun a _ => same a, rings.apart⟩
  | splice ring₁ ring₂ other =>
      obtain ⟨L', ran, kept, -⟩ := coclinkSplice_spec rings other ring₁ ring₂
      exact ⟨L', ran, kept⟩

/-- **Circular links.** From any collection of disjoint rings, every sequence of operations
runs, and leaves the rings that the same changes of the lists leave. -/
theorem links_are_lists {ops : List (Op α)} (rings : Rings L shape)
    (follows : Follows shape ops shape') :
    ∃ L', Runs.run step L ops = .ok L' ∧ Shows L' shape' := by
  induction follows generalizing L with
  | done shape => exact ⟨L, rfl, .of_rings rings⟩
  | next change later ih =>
      obtain ⟨L₁, taken, kept⟩ := step_changes rings change
      obtain ⟨L', ran, shows⟩ := ih kept
      exact ⟨L', by rw [Runs.run, taken]; exact ran, shows⟩

/-- No links at all. -/
def noLinks : Mem Nat := ⟨fun _ => none, fun _ => none⟩

/-- In a collection that has the one ring `xs` at `head`, what is not in it is loose. -/
theorem loose_one {shape : Shape Nat} {head x : Nat} {xs : List Nat} (outside : x ∉ head :: xs)
    (one : ∀ g, g ≠ head → shape g = none) (ring : shape head = some xs) : Loose shape x := by
  intro g ys here mem
  by_cases same : g = head
  · subst same
    rw [ring] at here
    cases here
    exact absurd mem outside
  · rw [one g same] at here
    cases here

/-- A ring of two nodes; one of them is taken out twice. -/
theorem links_are_lists_twice : ∃ L' shape',
    Runs.run step noLinks [.init 0, .addBack 0 5, .addFront 0 6, .remote 5, .remote 5] = .ok L' ∧
      Shows L' shape' ∧ shape' 0 = some [6] ∧ shape' 5 = some [] := by
  have rings : Rings noLinks fun _ => none := ⟨nofun, nofun⟩
  have apart {g x : Nat} {a b : Option (List Nat)} (other : g ≠ 0) : Function.update
      (Function.update (Function.update (fun _ => none) 0 a) x none) 0 b g = none := by
    simp [Function.update_apply, other]
  obtain ⟨shape', follows, head, node⟩ : ∃ shape', Follows (fun _ => none)
      [.init 0, .addBack 0 5, .addFront 0 6, .remote 5, .remote 5] shape' ∧
      shape' 0 = some [6] ∧ shape' 5 = some [] := by
    refine ⟨_, .next (.init nofun) (.next (.addBack (Function.update_self _ _ _) ?_ (by decide))
      (.next (.addFront (Function.update_self _ _ _) ?_ (by decide)) (.next
        (.linked (l := [6]) (r := []) (Function.update_self _ _ _))
        (.next (.alone (Function.update_self _ _ _)) (.done _))))), rfl, rfl⟩
    · exact loose_one (by decide) (fun g other => Function.update_of_ne other _ _)
        (Function.update_self _ _ _)
    · exact loose_one (by decide) (fun g other => apart other) (Function.update_self _ _ _)
  obtain ⟨L', ran, shows⟩ := links_are_lists rings follows
  exact ⟨L', shape', ran, shows, head, node⟩

end Colinlib.Guarantees.CircularLinks
