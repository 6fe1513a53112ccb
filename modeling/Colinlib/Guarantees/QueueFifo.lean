import Colinlib.Source.Queue

/-!
# The queue refines an unbounded list

Every sequence of pushes, pops and peeks on a new queue returns what the list
returns, across wraps and growths. A run is abandoned only where a size leaves its
range.
-/
namespace Colinlib.Guarantees.QueueFifo
open Colinlib.Theory Colinlib.Theory.CMemory
open Colinlib.Source.Vec Colinlib.Source.Queue

variable {α : Type}

def queueStep (queue : Coqueue α) : Fifo.Call α → Except Fault (Option (Option α) × Coqueue α)
  | .push a => do
    let queue ← coqueuePush queue a
    .ok (none, queue)
  | .pop => coqueuePop queue
  | .peek index => do
    let out ← coqueuePeek queue index
    .ok (out, queue)

def queueRun : Coqueue α → List (Fifo.Call α) →
    Except Fault (List (Option (Option α)) × Coqueue α)
  | queue, [] => .ok ([], queue)
  | queue, call :: rest => do
    let (out, queue) ← queueStep queue call
    let (outs, queue) ← queueRun queue rest
    .ok (out :: outs, queue)

theorem queueStep_refines {queue : Coqueue α} {q : List α} (h : Holds queue q)
    (call : Fifo.Call α) : UnlessOverflow (queueStep queue call) (fun out =>
      out.1 = (Fifo.serve q call).1.map some ∧ Holds out.2 (Fifo.serve q call).2) := by
  cases call with
  | push a =>
      refine .bind (coqueuePush_spec h a) ?_
      intro queue' h'
      exact .pure ⟨rfl, h'⟩
  | pop => exact coqueuePop_spec h
  | peek index =>
      refine .bind (coqueuePeek_spec h index) ?_
      intro out hout
      exact .pure ⟨hout, h⟩

theorem queueRun_refines {queue : Coqueue α} {q : List α} (h : Holds queue q)
    (calls : List (Fifo.Call α)) : UnlessOverflow (queueRun queue calls) (fun out =>
      out.1 = (Fifo.serveAll q calls).1.map (Option.map some) ∧
        Holds out.2 (Fifo.serveAll q calls).2) := by
  induction calls generalizing queue q with
  | nil => exact .pure ⟨rfl, h⟩
  | cons call rest ih =>
      refine .bind (queueStep_refines h call) ?_
      rintro ⟨out, queue'⟩ ⟨hout, h'⟩
      refine .bind (ih h') ?_
      rintro ⟨outs, queue''⟩ ⟨houts, h''⟩
      exact .pure ⟨congr (congrArg List.cons hout) houts, h''⟩

/-- Every sequence of calls on a new queue returns what an unbounded list returns (a pop
the oldest item, or nothing if there is none, a peek the item at its index from either
end, or nothing), and leaves a queue whose size is the length of the list and less than
that of its vector. -/
theorem coqueue_refines_fifo (itemsize : Nat) (calls : List (Fifo.Call α)) :
    UnlessOverflow (do queueRun (← coqueueNew α itemsize) calls) (fun out =>
      out.1 = (Fifo.serveAll [] calls).1.map (Option.map some) ∧
      coqueueSize out.2 = (Fifo.serveAll [] calls).2.length ∧
      coqueueSize out.2 < out.2.vec.size ∧ Holds out.2 (Fifo.serveAll [] calls).2) := by
  refine .bind (coqueueNew_spec α itemsize) fun queue h => ?_
  refine (queueRun_refines h calls).mono fun out refines => ?_
  obtain ⟨outs, holds⟩ := refines
  refine ⟨outs, holds.length, ?_, holds⟩
  rw [holds.length]
  exact holds.room

/-- A queue that wraps, grows while it is wrapped, and is looked at from both ends. -/
example :
    let calls : List (Fifo.Call Nat) := [1, 2, 3, 4, 5].map .push ++ [.pop, .pop, .pop, .pop] ++
      [6, 7, 8, 9, 10, 11, 12].map .push ++ [.peek 0, .peek (-1), .peek 8]
    (do queueRun (← coqueueNew Nat 4) calls).map
        (fun out : List (Option (Option Nat)) × Coqueue Nat => (out.1.drop 16, out.2.head, out.2.tail, out.2.vec.size)) =
      .ok ([some (some 5), some (some 12), none], 12, 4, 16) := by decide +kernel

end Colinlib.Guarantees.QueueFifo
