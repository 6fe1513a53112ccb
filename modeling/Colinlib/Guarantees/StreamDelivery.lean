import Colinlib.Source.Reception

/-!
# What a stream object shows of what it reads

A read event of a TCP object or of a bound descriptor takes the bytes of one `read`. They go
to the receive callback as they are; where there is none, and where a TCP object is not
connected any more, they are gone.
-/
namespace Colinlib.Guarantees.StreamDelivery
open Colinlib.Theory Colinlib.Theory.Callbacks
open Colinlib.Source.IoWorld Colinlib.Source.IoService Colinlib.Source.EventLoop
open Colinlib.Source.IoChanges Colinlib.Source.IoTrace Colinlib.Source.Reception

/-! ## What is taken and what is shown -/

/-- The bytes of one `read`: whether the object shows what it reads at that time, its receive
callback, and the bytes. -/
structure Chunk where
  shows : Bool
  fnRecv : Option Nat
  data : List UInt8
  deriving DecidableEq, Repr

/-- What the handler makes of a chunk. The end of a stream is not shown as data. -/
def Chunk.shown (r : Ref) (life : Nat) (d : Chunk) : List Callback :=
  if d.data = [] ∨ d.shows = false then []
  else d.fnRecv.toList.map fun fn => ⟨r, life, fn, .recv d.data none⟩

/-- Somebody hears of the chunk, or there is nothing to hear. -/
def Chunk.Heard (d : Chunk) : Prop := d.data ≠ [] → d.shows = true ∧ d.fnRecv.isSome

instance (d : Chunk) : Decidable d.Heard :=
  inferInstanceAs (Decidable (d.data ≠ [] → d.shows = true ∧ d.fnRecv.isSome))

/-- The bytes that a callback is called with. -/
def payload (c : Callback) : List UInt8 :=
  match c.notice with
  | .recv bytes _ => bytes
  | _ => []

/-- The bytes that the user was shown in one use of a slot. -/
def shownBytes (log : List Event) (r : Ref) (life : Nat) : List UInt8 :=
  (delivered log r life).flatMap payload

/-- A call returns no more of a stream than it has room for, and loses nothing. -/
def chunks : Reading (List UInt8) Chunk where
  data
    | .bytes data => some data
    | _ => none
  fill _ data := (data, none)
  record kind obj data := ⟨deliversOf kind obj, obj.fnRecv, data⟩
  shown := Chunk.shown

/-- What a move reads for `r`, in one use of the slot. -/
abbrev takenBy := chunks.takenBy

/-- The chunks read for `r` in a run of a new service. -/
abbrev taken := chunks.taken

theorem chunks_records {kind : Kind} (stream : kind ≠ .udp) : chunks.Records kind where
  reads len a out read := by
    have receive : receiveOf kind = readBytes := by
      cases kind with
      | udp => exact absurd rfl stream
      | tcp | fd => rfl
    rw [receive] at read
    cases a with
    | bytes data =>
        simp only [readBytes] at read
        split at read
        · cases read
          exact ⟨data, rfl, rfl⟩
        · cases read
    | _ => cases read
  shows r life obj data same := by
    rw [← same]
    rfl

/-! ## Runs -/

section Bytes
variable {r : Ref} {life : Nat}

theorem payload_shown (d : Chunk) :
    (d.shown r life).flatMap payload = if d.shows = true ∧ d.fnRecv.isSome then d.data else [] := by
  unfold Chunk.shown
  by_cases empty : d.data = []
  · rw [if_pos (.inl empty), empty, ite_self]
    rfl
  · cases shows : d.shows with
    | false => simp
    | true =>
        rw [if_neg (by simp [empty])]
        cases set : d.fnRecv with
        | none => simp
        | some fn => simp [payload]

theorem heard_iff (r : Ref) (life : Nat) (d : Chunk) : (d.shown r life).flatMap payload = d.data ↔ d.Heard := by
  rw [payload_shown]
  unfold Chunk.Heard
  split
  · next heard => exact iff_of_true rfl fun _ => heard
  · next unheard =>
    constructor
    · exact fun same some' => absurd same.symm some'
    · intro heard
      by_contra some'
      exact unheard (heard (Ne.symm some'))

/-- Nothing is lost of many chunks only if nothing is lost of any. -/
theorem heard_all (ds : List Chunk) :
    (ds.flatMap (Chunk.shown r life)).flatMap payload = ds.flatMap Chunk.data ↔
      ∀ d ∈ ds, d.Heard := by
  have fewer (d : Chunk) : ((d.shown r life).flatMap payload).length ≤ d.data.length := by
    rw [payload_shown]
    split
    · exact Nat.le_refl _
    · exact Nat.zero_le _
  rw [List.flatMap_assoc, flatMap_eq_iff fewer]
  exact forall₂_congr fun d _ => heard_iff r life d

end Bytes

/-- Whatever happens in a run, the chunks of a stream object are shown in the order in which
they are read, each once. No byte is lost if and only if each chunk that is not empty is read
while the object shows what it reads and has a receive callback. -/
theorem chunks_delivered (zeroBlock : Bool) (moves : List Step) (s : Coloop)
    (reached : Runs.run (step coiosSystem) (start zeroBlock) moves = .ok s) (r : Ref)
    (stream : r.kind ≠ .udp) (life : Nat) :
    delivered s.world.log r life = (taken zeroBlock moves r life).flatMap (Chunk.shown r life) ∧
    (shownBytes s.world.log r life = (taken zeroBlock moves r life).flatMap Chunk.data ↔
      ∀ d ∈ taken zeroBlock moves r life, d.Heard) := by
  have shown : delivered s.world.log r life =
      (taken zeroBlock moves r life).flatMap (Chunk.shown r life) :=
    run_delivered (chunks_records stream) life reached
  refine ⟨shown, ?_⟩
  rw [shownBytes, shown]
  exact heard_all _

/-- A descriptor is bound, and one byte is read from it. -/
def oneRead (answers : List Answer) : List Step :=
  [.start (.call (.cofdBind 5 .null)) [],
    .start (.call (.cofdOnRecv ⟨.fd, 0⟩ (some 1))) [],
    .start (.wait [⟨5, true, false, false⟩]) [],
    .start .dispatch [],
    .start .handle answers]

theorem chunks_delivered_oneByte : ∃ s,
    Runs.run (step coiosSystem) (start true) (oneRead [.failed eintr, .bytes [7]]) = .ok s ∧
      taken true (oneRead [.failed eintr, .bytes [7]]) ⟨.fd, 0⟩ 1 = [⟨true, some 1, [7]⟩] ∧
      shownBytes s.world.log ⟨.fd, 0⟩ 1 = [7] := by
  have seen : (Runs.run (step coiosSystem) (start true)
      (oneRead [.failed eintr, .bytes [7]])).map (fun s => s.stack.length) = .ok 1 := by
    decide +kernel
  have only : taken true (oneRead [.failed eintr, .bytes [7]]) ⟨.fd, 0⟩ 1 =
      [⟨true, some 1, [7]⟩] := by decide +kernel
  obtain ⟨s, reached, -⟩ := Runs.reached_of_map seen
  have whole := (chunks_delivered true _ s reached ⟨.fd, 0⟩ nofun 1).2.mpr
    (by rw [only]; simp [Chunk.Heard])
  rw [only] at whole
  exact ⟨s, reached, only, whole⟩

end Colinlib.Guarantees.StreamDelivery
