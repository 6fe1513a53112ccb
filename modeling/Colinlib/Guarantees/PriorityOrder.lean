import Colinlib.Source.Pqueue
import Colinlib.Theory.Runs

/-!
# The priority queue serves its elements in order

As long as no push finds a full vector whose double has `2 ^ 32` bytes or more, a sequence of
pushes and pops from a new queue is a run of the bag of which a greatest element is taken, and
leaves a heap. Popping until the queue is empty returns what is left in non-increasing order.
The growth to `2 ^ 32` bytes leaves an allocation too small for the element that is pushed.
-/
namespace Colinlib.Guarantees.PriorityOrder
open Colinlib.Theory.CMemory Colinlib.Theory.PriorityQueue Colinlib.Theory.Runs
open Colinlib.Source.Vec (initCap)
open Colinlib.Source.VecBytes Colinlib.Source.VecItems Colinlib.Source.Pqueue

variable {U : Type} {n : Nat}

/-- The queue, and what the pops returned, the latest last. -/
abbrev World (U : Type) := Copqueue U × List (Option (List (Option UInt8)))

def step (w : World U) : Op (Item n) → Except Fault (World U)
  | .push a => do return (← copqueuePush w.1 a.pointer, w.2)
  | .pop => do
    let (out, pq) ← copqueuePop w.1
    return (pq, w.2 ++ [out])

/-- The bytes that the pops copy out. -/
def returned (answers : List (Option (Item n))) : List (Option (List (Option UInt8))) :=
  answers.map (Option.map Item.cells)

/-- Popping until the queue is empty returns the items in non-increasing order. -/
def Drains (comp : List UInt8 → List UInt8 → Int) (pq : Copqueue U) (items : List (Item n)) :
    Prop :=
  ∃ pq', ∃ sorted : List (Item n),
    run step (pq, []) (List.replicate (copqueueSize pq) (.pop : Op (Item n))) =
      .ok (pq', returned (sorted.map some)) ∧
    sorted.Pairwise (Ge comp) ∧ sorted.Perm items ∧ copqueueSize pq' = 0

/-- The calls return, and leave a heap (no element is less than one of its children) whose
elements are those pushed and not popped; each pop returned an element that none left behind
exceeded, or failed on an empty queue. -/
def ServesGreatest (itemsize : UInt16) (fn : U → List UInt8 → List UInt8 → Int) (ud : U)
    (ops : List (Op (Item itemsize.toNat))) : Prop :=
  ∃ pq, ∃ items : List (Item itemsize.toNat), ∃ answers,
    run step (copqueueNew itemsize fn ud, []) ops = .ok (pq, returned answers) ∧
    Holds pq.vec items ∧ Ordered (Ge (fn ud)) items ∧ Serves (Ge (fn ud)) 0 ops answers items ∧
    Drains (fn ud) pq items

/-- A push needs no growth, or one to less than `2 ^ 32` bytes that `int` allows. -/
def Meets (w : World U) : Op (Item n) → Prop
  | .push _ => HasRoom w.1.vec
  | .pop => True

instance (w : World U) : (op : Op (Item n)) → Decidable (Meets w op)
  | .push _ => inferInstanceAs (Decidable (HasRoom w.1.vec))
  | .pop => .isTrue trivial

section Runs
variable {comp : List UInt8 → List UInt8 → Int} {pq : Copqueue U} {xs : List (Item n)}
  {before : List (Option (List (Option UInt8)))}

theorem run_serves (order : TotalPreorder (Ge (n := n) comp)) (ops : List (Op (Item n)))
    (h : Queued comp pq xs) (room : Along step Meets (pq, before) ops) :
    ∃ pq', ∃ ys : List (Item n), ∃ answers,
      run step (pq, before) ops = .ok (pq', before ++ returned answers) ∧
      Queued comp pq' ys ∧ Serves (Ge comp) xs ops answers ys := by
  induction ops generalizing pq xs before with
  | nil => exact ⟨pq, xs, [], by rw [returned, List.map_nil, List.append_nil]; rfl, h, .done _⟩
  | cons op rest ih =>
      cases op with
      | push a =>
          obtain ⟨pq₁, ys, pushed, queued, perm⟩ := copqueuePush_spec order h room.1 a
          have taken : step (pq, before) (.push a) = .ok (pq₁, before) := by
            rw [step, pushed]
            rfl
          obtain ⟨pq₂, zs, answers, ran, final, serves⟩ := ih queued (room.2 _ taken)
          refine ⟨pq₂, zs, answers, by simp only [run, taken, ran], final, .push ?_⟩
          rwa [Multiset.coe_eq_coe.mpr perm] at serves
      | pop =>
          cases xs with
          | nil =>
              have taken : step (pq, before) (.pop : Op (Item n)) = .ok (pq, before ++ [none]) := by
                rw [step, copqueuePop_empty h]
                rfl
              obtain ⟨pq₂, zs, answers, ran, final, serves⟩ := ih h (room.2 _ taken)
              refine ⟨pq₂, zs, none :: answers, ?_, final, .empty serves⟩
              simp only [run, taken, ran, returned, List.map_cons, Option.map_none,
                List.append_assoc, List.singleton_append]
          | cons x xs =>
              obtain ⟨a, ys, pq₁, popped, queued, perm, greatest⟩ :=
                copqueuePop_spec order h (List.cons_ne_nil x xs)
              have taken : step (pq, before) (.pop : Op (Item n)) =
                  .ok (pq₁, before ++ [some a.cells]) := by
                rw [step, popped]
                rfl
              obtain ⟨pq₂, zs, answers, ran, final, serves⟩ := ih queued (room.2 _ taken)
              refine ⟨pq₂, zs, some a :: answers, ?_, final, ?_⟩
              · simp only [run, taken, ran, returned, List.map_cons, Option.map_some,
                  List.append_assoc, List.singleton_append]
              · rw [← Multiset.coe_eq_coe.mpr perm]
                exact .pop greatest serves

/-- A run that got to its end found room for every push. -/
theorem along_of_run (order : TotalPreorder (Ge (n := n) comp)) (narrow : n < 2 ^ 16)
    (ops : List (Op (Item n))) (h : Queued comp pq xs) {w : World U}
    (ran : run step (pq, before) ops = .ok w) : Along step Meets (pq, before) ops := by
  induction ops generalizing pq xs before with
  | nil => trivial
  | cons op rest ih =>
      obtain ⟨w₁, taken, later⟩ := run_cons ran
      have meets : Meets (pq, before) op := by
        cases op with
        | pop => trivial
        | push a =>
            by_contra full
            obtain ⟨f, stops⟩ := copqueuePush_stops h narrow full a.pointer
            rw [step, stops] at taken
            cases taken
      have single : Along step Meets (pq, before) [op] := ⟨meets, fun _ _ => trivial⟩
      obtain ⟨pq₁, ys, answers, one, queued, -⟩ := run_serves order [op] h single
      simp only [run, taken] at one
      cases one
      refine ⟨meets, fun w₂ taken₂ => ?_⟩
      rw [taken] at taken₂
      cases taken₂
      exact ih queued later

theorem Queued.drains (order : TotalPreorder (Ge (n := n) comp)) (h : Queued comp pq xs) :
    Drains comp pq xs := by
  have size : copqueueSize pq = xs.length := h.items.size
  have pops : Along step Meets (pq, []) (List.replicate xs.length (.pop : Op (Item n))) := by
    have all : Along step (fun _ op => op = .pop) (pq, [])
        (List.replicate xs.length (.pop : Op (Item n))) :=
      along_of_forall step (fun _ => List.eq_of_mem_replicate) _
    refine all.mono ?_
    rintro w op rfl
    trivial
  obtain ⟨pq', ys, answers, ran, queued, serves⟩ := run_serves order _ h pops
  obtain ⟨sorted, rfl, descending, same, gone⟩ := serves.drained _ (Multiset.coe_card xs)
  refine ⟨pq', sorted, ?_, descending, Multiset.coe_eq_coe.mp same, ?_⟩
  · rw [size]
    exact ran
  · rw [copqueueSize, queued.items.size, (Multiset.coe_eq_zero _).mp gone]
    rfl

end Runs

/-- **Order of service.** From a new queue, the calls of a sequence and of each of its beginnings
serve a greatest element each time if and only if every push finds room. -/
theorem copqueue_serves_greatest (itemsize : UInt16) (fn : U → List UInt8 → List UInt8 → Int)
    (ud : U) (order : TotalPreorder (Ge (n := itemsize.toNat) (fn ud)))
    (ops : List (Op (Item itemsize.toNat))) :
    (∀ first, first <+: ops → ServesGreatest itemsize fn ud first) ↔
      Along step Meets (copqueueNew itemsize fn ud, []) ops := by
  have new := copqueueNew_queued itemsize fn ud
  constructor
  · intro serves
    obtain ⟨pq, items, answers, ran, -⟩ := serves ops List.prefix_rfl
    exact along_of_run order itemsize.toNat_lt ops new ran
  · rintro room first ⟨rest, rfl⟩
    obtain ⟨pq, items, answers, ran, queued, serves⟩ := run_serves order first new room.start
    exact ⟨pq, items, answers, ran, queued.items, queued.ordered, serves, Queued.drains order queued⟩

/-- Items of one byte, compared by it. -/
def byByte (_ : Unit) (a b : List UInt8) : Int := (a.headD 0).toNat - (b.headD 0).toNat

def byte (b : UInt8) : Item 1 := ⟨[b], rfl⟩

/-- Five pushes with a tie, and a pop. -/
def fiveAndOne : List (Op (Item 1)) :=
  [.push (byte 2), .push (byte 7), .push (byte 1), .push (byte 7), .push (byte 5), .pop]

theorem copqueue_serves_greatest_fiveAndOne :
    TotalPreorder (Ge (n := 1) (byByte ())) ∧ ServesGreatest 1 byByte () fiveAndOne := by
  have order : TotalPreorder (Ge (n := 1) (byByte ())) := by
    constructor
    · intro a b
      simp only [Ge, byByte]
      omega
    · intro a b c hab hbc
      simp only [Ge, byByte] at *
      omega
  have room : Along step Meets (copqueueNew 1 byByte (), []) fiveAndOne := by decide +kernel
  exact ⟨order, (copqueue_serves_greatest 1 byByte () order fiveAndOne).mpr room _ List.prefix_rfl⟩

/-! ## Too many items -/

/-- All items are equal. -/
def noOrder (_ : Unit) (_ _ : List UInt8) : Int := 0

theorem noOrder_total : TotalPreorder (Ge (n := n) (noOrder ())) :=
  ⟨fun _ _ => .inl (Int.le_refl 0), fun _ _ => Int.le_refl 0⟩

theorem Queued.below {comp : List UInt8 → List UInt8 → Int} {pq : Copqueue U} {xs : List (Item 8)}
    (h : Queued comp pq xs) : xs.length < 2 ^ 28 := by
  have small := h.items.small
  have free := h.grown.free
  rw [h.items.itemsize] at small
  have cap : pq.vec.cap ≤ 2 ^ 28 := h.grown.half (by omega)
  rw [← h.items.size]
  omega

/-- Items of eight bytes: the push of the `2 ^ 28`th asks for `2 ^ 32` bytes, and gets none. -/
def pushes (count : Nat) : List (Op (Item (8 : UInt16).toNat)) :=
  List.replicate count (.push ⟨List.replicate 8 0, rfl⟩)

theorem copqueue_overruns : ¬ ∀ itemsize (fn : Unit → List UInt8 → List UInt8 → Int) ud,
    TotalPreorder (Ge (n := itemsize.toNat) (fn ud)) →
      ∀ ops first, first <+: ops → ServesGreatest itemsize fn ud first := by
  intro always
  obtain ⟨pq, items, answers, ran, -⟩ :=
    always 8 noOrder () noOrder_total (pushes (2 ^ 28)) _ List.prefix_rfl
  have new := copqueueNew_queued 8 noOrder ()
  have room := along_of_run noOrder_total (UInt16.toNat_lt 8) _ new ran
  obtain ⟨pq', items', answers', -, queued, serves⟩ := run_serves noOrder_total _ new room
  have all := serves.pushed
  rw [Multiset.coe_card, Multiset.coe_nil, Multiset.card_zero] at all
  have below : items'.length < 2 ^ 28 := Queued.below queued
  omega

end Colinlib.Guarantees.PriorityOrder
