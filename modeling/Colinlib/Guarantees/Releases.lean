import Colinlib.Guarantees.DictMap
import Colinlib.Guarantees.LinkedList
import Colinlib.Source.DictKeys

/-!
# Containers release what they allocated

A node is released at most once, since to release it a second time is a fault. The function
that ends the life of a container leaves none, after any calls that came before.
-/
namespace Colinlib.Guarantees.Releases
open Colinlib.Theory Colinlib.Theory.CMemory Colinlib.Theory.Chains Colinlib.Theory.Runs

section Dictionary
open Colinlib.Source.Dict Colinlib.Guarantees.DictMap

variable {κ υ : Type}

theorem codictFree_spec {dict : Codict κ υ} {cells : List (Cell κ υ)} (h : Holds dict cells) :
    ∃ left, codictFree dict = .ok left ∧ ∀ a, left a = none := by
  obtain ⟨dict', ran, -, -, holds⟩ := codictClear_spec h
  refine ⟨dict'.nodes, ?_, fun a => ?_⟩
  · rw [codictFree, ran]
    rfl
  · cases live : dict'.nodes a with
    | none => rfl
    | some node =>
        obtain ⟨c, there, -⟩ := holds.entry live
        cases there

/-- **The dictionary keeps nothing.** After any run, `codict_free` returns, and of all nodes that
were ever allocated none is left. -/
theorem codict_releases_all (fnHash : κ → UInt64) (fnEqual : κ → κ → Bool)
    (law : Lawful fnHash fnEqual) (ops : List (Op κ υ)) :
    Outcome Halt.ByCaller (fun w => ∃ left, codictFree w.1 = .ok left ∧ ∀ a, left a = none)
      (runNew fnHash fnEqual ops) :=
  (runNew_tracks law ops).mono fun _ tracks => codictFree_spec tracks.holds

/-- Keys that are pointers, one set twice and one deleted. -/
theorem codict_releases_all_pointers :
    Outcome Halt.ByCaller (fun w => ∃ left, codictFree w.1 = .ok left ∧ ∀ a, left a = none)
      (runNew codictPtrHash codictPtrEqual [.set 8 1, .set 16 2, .set 8 3, .del 16] :
        Except (Halt Fault) (DictMap.World UInt64 Nat)) :=
  codict_releases_all _ _ codictPtr_lawful _

end Dictionary

section List
open Colinlib.Theory.NamedList Colinlib.Source.LinkedList Colinlib.Guarantees.LinkedList

variable {α : Type}

/-- The loop releases the nodes of a chain. -/
theorem freeLoop_spec {list : Colist α} {start : Option Nat} {chain : List Nat}
    (linked : Chain (linksOf list).next start chain) (live : ∀ a ∈ chain, Alloc list a)
    {fuel : Nat} (enough : chain.length ≤ fuel) :
    ∃ list', freeLoop fuel start list = .ok list' ∧
      ∀ a, list'.nodes a = if a ∈ chain then none else list.nodes a := by
  induction chain generalizing start fuel list with
  | nil =>
      cases linked
      refine ⟨list, by cases fuel <;> rfl, fun a => ?_⟩
      rw [if_neg List.not_mem_nil]
  | cons x rest ih =>
      have once := linked.nodup
      obtain ⟨apart, -⟩ := List.nodup_cons.mp once
      obtain ⟨rfl, linked⟩ := linked
      cases fuel with
      | zero => cases enough
      | succ fuel =>
          obtain ⟨node, read, -, next, -⟩ := (live x List.mem_cons_self).node
          have kept : ∀ a ∈ rest, (release list x).nodes a = list.nodes a := by
            intro a inside
            have other : a ≠ x := fun same => apart (same ▸ inside)
            exact Function.update_of_ne other _ _
          have linked' : Chain (linksOf (release list x)).next node.next rest := by
            rw [next]
            refine linked.congr fun a inside => ?_
            simp only [linksOf, kept a inside]
          have live' : ∀ a ∈ rest, Alloc (release list x) a := by
            intro a inside
            have before := live a (List.mem_cons_of_mem x inside)
            unfold Alloc dataOf at before ⊢
            rwa [kept a inside]
          obtain ⟨list', ran, left⟩ := ih linked' live' (Nat.le_of_succ_le_succ enough)
          refine ⟨list', ?_, fun a => ?_⟩
          · rw [freeLoop, read]
            exact ran
          · rw [left a]
            by_cases same : a = x
            · subst same
              rw [if_neg apart, if_pos List.mem_cons_self]
              exact Function.update_self _ _ _
            · have released : (release list x).nodes a = list.nodes a :=
                Function.update_of_ne same _ _
              simp only [List.mem_cons, same, false_or, released]

theorem colistFree_spec {list : Colist α} {xs : List (Nat × α)} (h : LinkedList.Holds list xs)
    {fuel : Nat} (enough : xs.length ≤ fuel) :
    ∃ left, colistFree fuel list = .ok left ∧ ∀ a, left a = none := by
  have length : (names xs).length ≤ fuel := by rwa [names, List.length_map]
  have chain : Chain (linksOf list).next list.head (names xs) := h.links.forward
  obtain ⟨list', ran, left⟩ := freeLoop_spec chain (fun _ => h.alloc) length
  refine ⟨list'.nodes, ?_, fun a => ?_⟩
  · rw [colistFree, ran]
    rfl
  · rw [left a]
    split
    · rfl
    · next outside =>
      rw [← Option.not_isSome_iff_eq_none, h.nodes_iff]
      exact outside

/-- **The list keeps nothing.** After any calls, those that reuse the address of a released
node among them, `colist_free` returns, and no node is left. -/
theorem colist_releases_all (calls : List (Call Nat α)) (admitted : AdmittedAll [] calls) :
    ∃ replies list, colistRun colistNew calls = .ok (replies, list) ∧
      ∃ enough, ∀ fuel, enough ≤ fuel →
        ∃ left, colistFree fuel list = .ok left ∧ ∀ a, left a = none := by
  obtain ⟨list, ran, holds⟩ := colistRun_spec colistNew_holds calls admitted
  exact ⟨_, list, ran, _, fun _ enough => colistFree_spec holds enough⟩

/-- Three nodes, of which one was released and its address given out again. -/
theorem colist_releases_all_reuse :
    ∃ replies list, colistRun colistNew [Call.pushTail 1 'a', .pushHead 2 'b', .popAt (some 1) true,
        .pushAt 2 1 'c' false] = .ok (replies, list) ∧
      ∃ enough, ∀ fuel, enough ≤ fuel →
        ∃ left, colistFree fuel list = .ok left ∧ ∀ a, left a = none :=
  colist_releases_all _ (by decide)

end List

end Colinlib.Guarantees.Releases
