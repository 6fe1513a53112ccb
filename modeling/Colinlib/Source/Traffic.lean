import Mathlib.Data.List.Nodup
import Colinlib.Source.IoTrace

/-!
# What was accepted, what was handed over and what waits

A stream hands bytes to the kernel, a UDP object datagrams. Taking either as parcels, the
send functions append to the queue of an object what they accept, and the write loops
hand over a first part of it, whatever the kernel answers. A datagram is sent whole or not
at all.
-/
namespace Colinlib.Source.Traffic
open Colinlib.Theory.CMemory Colinlib.Theory.Callbacks Colinlib.Source.RingBuffer
open Colinlib.Source.IoWorld Colinlib.Source.IoService Colinlib.Source.EventLoop
open Colinlib.Source.IoChanges Colinlib.Source.IoTrace

/-! ## Parcels -/

/-- A datagram with its address, or one byte of a stream. -/
abbrev Parcel := Option Addr × List (Option UInt8)

def parcels (cells : List (Option UInt8)) : Option Addr → List Parcel
  | some dest => [(some dest, cells)]
  | none => cells.map fun c => (none, [c])

/-- What an event says the object in its use `life` of the slot accepted for sending. -/
def acceptedBy (r : Ref) (life : Nat) : Event → List Parcel
  | .sent s l data dest => if s = r ∧ l = life then parcels (data.map some) dest else []
  | _ => []

/-- What an event says it handed to the kernel. -/
def handedBy (r : Ref) (life : Nat) : Event → List Parcel
  | .wrote s l cells dest => if s = r ∧ l = life then parcels cells dest else []
  | _ => []

/-- The record has the latest event first. -/
def accepted (log : List Event) (r : Ref) (life : Nat) : List Parcel :=
  log.reverse.flatMap (acceptedBy r life)

def handed (log : List Event) (r : Ref) (life : Nat) : List Parcel :=
  log.reverse.flatMap (handedBy r life)

/-- The parcels in the queue of an object. -/
def waiting (kind : Kind) (o : Coio) : List Parcel :=
  match kind with
  | .udp => o.sendlist.nodes.map fun wb => (some wb.addr, wb.data.map some)
  | _ =>
    match o.sendbuf with
    | some rb => parcels (unread rb) none
    | none => []

/-- The nodes of a list are distinct, and `tail` points to the last of them, or nowhere. -/
structure Linked (list : Udpsendlist) : Prop where
  tail : list.tail = list.nodes.getLast?.map Udpbuffer.id
  ids : (list.nodes.map Udpbuffer.id).Nodup
  made : ∀ wb ∈ list.nodes, wb.id < list.made

/-- The queue is well formed. -/
def Formed (kind : Kind) (o : Coio) : Prop :=
  match kind with
  | .udp => Linked o.sendlist
  | _ => ∀ rb, o.sendbuf = some rb → ∃ q, Holds rb q

/-- Of the datagrams with these lengths, each that is sent is sent whole. -/
def sentWhole : List Nat → List Answer → Bool
  | size :: more, .failed e :: rest => e ≠ eintr || sentWhole (size :: more) rest
  | size :: more, .count n :: rest => n = size && sentWhole more rest
  | _, _ => true

def sizes (o : Coio) : List Nat := o.sendlist.nodes.map (·.data.length)

/-! ## The loops -/

theorem sendtoLoop_spec {sent : Sent} (answers : List Answer) :
    ∀ (nodes : List Udpbuffer) (gone : List (Addr × List UInt8)) (errno : Nat),
      sentWhole (nodes.map (·.data.length)) answers → sendtoLoop nodes gone errno answers = .ok sent →
      ∃ front, nodes = front ++ sent.nodes ∧
        sent.accepted = gone ++ front.map (fun wb => (wb.addr, wb.data)) ∧
        (sent.outcome = .drained ↔ sent.nodes = []) := by
  induction answers with
  | nil =>
      intro nodes gone errno whole ran
      cases nodes with
      | nil =>
          cases ran
          exact ⟨[], rfl, (List.append_nil _).symm, iff_of_true rfl rfl⟩
      | cons wb more => cases ran
  | cons answer rest ih =>
      intro nodes gone errno whole ran
      cases nodes with
      | nil =>
          cases ran
          exact ⟨[], rfl, (List.append_nil _).symm, iff_of_true rfl rfl⟩
      | cons wb more =>
          cases answer with
          | failed e =>
              simp only [sendtoLoop] at ran
              simp only [List.map_cons, sentWhole, Bool.or_eq_true, decide_eq_true_eq] at whole
              split at ran
              · next again =>
                exact ih _ gone e (whole.resolve_left (not_not.mpr again)) ran
              · split at ran
                · cases ran
                  exact ⟨[], rfl, (List.append_nil _).symm, iff_of_false nofun nofun⟩
                · cases ran
                  exact ⟨[], rfl, (List.append_nil _).symm, iff_of_false nofun nofun⟩
          | count n =>
              simp only [sendtoLoop] at ran
              simp only [List.map_cons, sentWhole, Bool.and_eq_true, decide_eq_true_eq] at whole
              obtain ⟨rfl, others⟩ := whole
              rw [if_neg (Nat.lt_irrefl _), if_neg (not_not.mpr rfl)] at ran
              obtain ⟨front, cut, handed, drained⟩ := ih _ _ errno others ran
              refine ⟨wb :: front, by rw [cut]; rfl, ?_, drained⟩
              rw [handed, List.append_assoc]
              rfl
          | _ => cases ran

/-- Whatever the kernel takes, the bytes handed over are the first of the queue. -/
theorem writeLoop_spec {flushed : Flushed} (answers : List Answer) :
    ∀ (rb : Coringbuf) (gone : List (Option UInt8)) (errno : Nat) (q : List UInt8), Holds rb q →
      writeLoop rb gone errno answers = .ok flushed →
      ∃ front rest, q = front ++ rest ∧ Holds flushed.rb rest ∧
        flushed.accepted = gone ++ front.map some ∧ (flushed.outcome = .drained ↔ rest = []) := by
  -- a loop that ends at once
  have ends : ∀ (out : Flush) (rb : Coringbuf) (gone : List (Option UInt8)) (q : List UInt8)
      {errno : Nat} {left : List Answer}, Holds rb q → (out = .drained ↔ q = []) →
      flushed = ⟨out, rb, gone, errno, left⟩ →
      ∃ front rest, q = front ++ rest ∧ Holds flushed.rb rest ∧
        flushed.accepted = gone ++ front.map some ∧ (flushed.outcome = .drained ↔ rest = []) := by
    rintro out rb gone q errno left held drained rfl
    exact ⟨[], q, rfl, held, (List.append_nil _).symm, drained⟩
  -- the size of a call, and what it hands over
  have window : ∀ (rb : Coringbuf) (q : List UInt8), Holds rb q → q ≠ [] →
      min 2048 (coringbufReadonceSize rb) ≠ 0 ∧
        min 2048 (coringbufReadonceSize rb) ≤ q.length ∧
        coringbufHead rb (min 2048 (coringbufReadonceSize rb)) =
          .ok ((q.take (min 2048 (coringbufReadonceSize rb))).map some) := by
    intro rb q held nonempty
    have positive := held.readonce_pos nonempty
    have bound := held.readonce_le
    exact ⟨by omega, by omega, coringbufHead_window held (Nat.min_le_right _ _)⟩
  induction answers with
  | nil =>
      intro rb gone errno q held ran
      unfold writeLoop at ran
      rw [held.readable] at ran
      by_cases empty : q = []
      · rw [if_pos (by rw [empty]; rfl)] at ran
        exact ends .drained rb gone q held (iff_of_true rfl empty) (Except.ok.inj ran).symm
      · obtain ⟨positive, -, head⟩ := window rb q held empty
        rw [if_neg (by rwa [List.length_eq_zero_iff])] at ran
        simp only [if_neg positive, head] at ran
        cases ran
  | cons answer rest ih =>
      intro rb gone errno q held ran
      unfold writeLoop at ran
      rw [held.readable] at ran
      by_cases empty : q = []
      · rw [if_pos (by rw [empty]; rfl)] at ran
        exact ends .drained rb gone q held (iff_of_true rfl empty) (Except.ok.inj ran).symm
      · obtain ⟨positive, bound, head⟩ := window rb q held empty
        rw [if_neg (by rwa [List.length_eq_zero_iff])] at ran
        simp only [if_neg positive, head] at ran
        generalize min 2048 (coringbufReadonceSize rb) = size at positive bound head ran
        cases answer with
        | failed e =>
            simp only at ran
            split at ran
            · exact ih rb gone e q held ran
            · split at ran
              · exact ends .later rb gone q held (iff_of_false nofun empty) (Except.ok.inj ran).symm
              · exact ends .failed rb gone q held (iff_of_false nofun empty) (Except.ok.inj ran).symm
        | count n =>
            simp only at ran
            split at ran
            · cases ran
            · next fits =>
              cases consumed : coringbufConsumeSize rb n with
              | error f =>
                  rw [consumed] at ran
                  cases ran
              | ok out =>
                  obtain ⟨done, rb'⟩ := out
                  have spec := (coringbufConsumeSize_spec held n).of_ok consumed
                  simp only [if_pos (show n ≤ q.length by omega)] at spec
                  have held' : Holds rb' (q.drop n) := spec.2
                  have taken : ((q.take size).map some).take n = (q.take n).map some := by
                    rw [← List.map_take, List.take_take, Nat.min_eq_left (by omega)]
                  simp only [consumed, taken] at ran
                  split at ran
                  · next short =>
                    cases ran
                    refine ⟨q.take n, q.drop n, (List.take_append_drop n q).symm, held', rfl, ?_⟩
                    refine iff_of_false nofun fun none => ?_
                    have := List.drop_eq_nil_iff.mp none
                    omega
                  · obtain ⟨front, left, cut, held'', handed, drained⟩ :=
                      ih rb' _ errno _ held' ran
                    refine ⟨q.take n ++ front, left, ?_, held'', ?_, drained⟩
                    · rw [List.append_assoc, ← cut, List.take_append_drop]
                    · rw [handed, List.append_assoc, List.map_append]
        | _ => cases ran

/-- The last node is the one `tail` points to, so the new one goes behind it. -/
theorem udpbufferAdd_spec {list : Udpsendlist} (h : Linked list) (addr : Addr)
    (data : List UInt8) : udpbufferAdd list addr data =
      .ok ⟨list.nodes ++ [⟨list.made, addr, data⟩], some list.made, list.made + 1⟩ := by
  unfold udpbufferAdd
  rcases List.eq_nil_or_concat list.nodes with none | ⟨front, last, shape⟩
  · simp only [none, if_true, List.nil_append]
  · rw [List.concat_eq_append] at shape
    have nonempty : list.nodes ≠ [] := by simp [shape]
    have tail : list.tail = some last.id := by rw [h.tail, shape, List.getLast?_concat]; rfl
    have ids := h.ids
    rw [shape, List.map_append, List.nodup_append] at ids
    have before : ∀ wb ∈ front, wb.id ≠ last.id := fun wb mem =>
      ids.2.2 _ (List.mem_map_of_mem mem) _ List.mem_cons_self
    have up : list.nodes.takeWhile (·.id ≠ last.id) = front := by
      rw [shape, List.takeWhile_append_of_pos (fun wb mem => by simpa using before wb mem)]
      simp
    have own : list.nodes.filter (·.id = last.id) = [last] := by
      have none : front.filter (·.id = last.id) = [] :=
        List.filter_eq_nil_iff.mpr fun wb mem => by simpa using before wb mem
      rw [shape, List.filter_append, none]
      simp
    have member : last.id ∈ list.nodes.map Udpbuffer.id :=
      List.mem_map_of_mem (by simp [shape])
    simp only [if_neg nonempty, tail, if_pos member, up, own]
    rw [shape]
    rfl

/-! ## One object and its record -/

theorem accepted_append (news log : List Event) (r : Ref) (life : Nat) :
    accepted (news ++ log) r life = accepted log r life ++ accepted news r life := by
  rw [accepted, List.reverse_append, List.flatMap_append]
  rfl

theorem handed_append (news log : List Event) (r : Ref) (life : Nat) :
    handed (news ++ log) r life = handed log r life ++ handed news r life := by
  rw [handed, List.reverse_append, List.flatMap_append]
  rfl

/-- The queue of `r` gained `arrived` at its end and lost `left` at its start, and the
record says so. -/
structure Moved (r : Ref) (w w' : World) (arrived left : List Parcel) : Prop where
  formed : Formed r.kind (w'.objs r)
  queue : waiting r.kind (w.objs r) ++ arrived = left ++ waiting r.kind (w'.objs r)
  accepted : accepted w'.log r (w.lives r) = accepted w.log r (w.lives r) ++ arrived
  handed : handed w'.log r (w.lives r) = handed w.log r (w.lives r) ++ left

section Queues
variable {r : Ref} {w w' : World}

theorem formed_empty {kind : Kind} {o : Coio} (sendbuf : o.sendbuf = none)
    (sendlist : o.sendlist = ⟨[], none, 0⟩) : Formed kind o := by
  unfold Formed
  split
  · rw [sendlist]
    exact ⟨rfl, List.nodup_nil, nofun⟩
  · rw [sendbuf]
    exact nofun

theorem waiting_empty {kind : Kind} {o : Coio} (sendbuf : o.sendbuf = none)
    (sendlist : o.sendlist = ⟨[], none, 0⟩) : waiting kind o = [] := by
  unfold waiting
  split
  · rw [sendlist]
    rfl
  · simp only [sendbuf]

theorem waiting_stream (stream : r.kind ≠ .udp) {o : Coio} {rb : Coringbuf} {q : List UInt8}
    (has : o.sendbuf = some rb) (held : Holds rb q) :
    waiting r.kind o = parcels (q.map some) none := by
  unfold waiting
  split
  · next kind => exact absurd kind stream
  · simp only [has, held.cells]

theorem waiting_none (stream : r.kind ≠ .udp) {o : Coio} (none : o.sendbuf = none) :
    waiting r.kind o = [] := by
  unfold waiting
  split
  · next kind => exact absurd kind stream
  · simp only [none]

theorem formed_stream (stream : r.kind ≠ .udp) {o : Coio} :
    Formed r.kind o ↔ ∀ rb, o.sendbuf = some rb → ∃ q, Holds rb q := by
  unfold Formed
  split
  · next kind => exact absurd kind stream
  · rfl

/-- The ring the data is written to. -/
theorem freshRing_holds (stream : r.kind ≠ .udp) {o : Coio} (formed : Formed r.kind o) {n : Nat}
    (positive : 0 < n) {rb : Coringbuf} (is : o.sendbuf = some rb ∨
      o.sendbuf = none ∧ (int32 (n * 2)).map coringbufNew = .ok rb) :
    ∃ q, Holds rb q ∧ waiting r.kind o = parcels (q.map some) none := by
  rcases is with has | ⟨none, new⟩
  · obtain ⟨q, held⟩ := (formed_stream stream).mp formed rb has
    exact ⟨q, held, waiting_stream stream has held⟩
  · cases sized : int32 (n * 2) with
    | error f =>
        rw [sized] at new
        cases new
    | ok m =>
        obtain ⟨rfl, -⟩ := (UnlessOverflow.int32 _).of_ok sized
        rw [sized] at new
        cases new
        exact ⟨[], coringbufNew_holds _ (by omega), waiting_none stream none⟩

theorem queueSendbuf_moved (stream : r.kind ≠ .udp) {data : List UInt8} (nonempty : data ≠ [])
    (formed : Formed r.kind (w.objs r)) (ran : queueSendbuf r data w = .ret () w') :
    Moved r w w' (parcels (data.map some) none) [] := by
  unfold queueSendbuf Prog.attempt at ran
  simp only at ran
  split at ran
  case h_2 => cases ran
  case h_1 done =>
    cases ran
    split at done
    case h_1 => cases done
    case h_2 rb fresh =>
      have is : (w.objs r).sendbuf = some rb ∨
          (w.objs r).sendbuf = none ∧ (int32 (data.length * 2)).map coringbufNew = .ok rb := by
        cases has : (w.objs r).sendbuf with
        | some rb' =>
            rw [has] at fresh
            exact .inl (congrArg some (Except.ok.inj fresh))
        | none =>
            rw [has] at fresh
            exact .inr ⟨rfl, fresh⟩
      obtain ⟨q, held, queued⟩ :=
        freshRing_holds stream formed (List.length_pos_iff.mpr nonempty) is
      split at done
      case h_1 => cases done
      case h_2 rb' written =>
        cases done
        have held' := (coringbufWrite_spec held data).of_ok written
        constructor
        · rw [note_objs, setObj_self, formed_stream stream]
          exact fun _ same => ⟨_, Option.some.inj same ▸ held'⟩
        · rw [note_objs, setObj_self, queued, waiting_stream stream rfl held', List.map_append]
          exact List.map_append.symm
        · rw [note_log, ← List.singleton_append, accepted_append]
          simp [accepted, acceptedBy, World.setObj]
        · rw [note_log, ← List.singleton_append, handed_append]
          simp [handed, handedBy, World.setObj]

theorem flushSendbuf_moved (stream : r.kind ≠ .udp) {out : Flush}
    (formed : Formed r.kind (w.objs r)) (ran : flushSendbuf r w = .ret out w') :
    (∃ left, Moved r w w' [] left) ∧ (out = .drained ↔ waiting r.kind (w'.objs r) = []) := by
  unfold flushSendbuf Prog.attempt at ran
  simp only at ran
  split at ran
  case h_2 => cases ran
  case h_1 done =>
    cases ran
    split at done
    case h_1 none =>
      cases done
      exact ⟨⟨[], formed, List.append_nil _, (List.append_nil _).symm, (List.append_nil _).symm⟩,
        iff_of_true rfl (waiting_none stream none)⟩
    case h_2 rb has =>
      obtain ⟨q, held⟩ := (formed_stream stream).mp formed rb has
      split at done
      case h_1 => cases done
      case h_2 flushed wrote =>
        cases done
        obtain ⟨front, rest, cut, held', handed', drained⟩ :=
          writeLoop_spec w.answers rb [] w.errno q held wrote
        rw [List.nil_append] at handed'
        simp only [note_objs, setObj_self]
        rw [waiting_stream stream rfl held']
        refine ⟨⟨parcels (front.map some) none, ?_, ?_, ?_, ?_⟩, ?_⟩
        · simp only [setObj_self]
          rw [formed_stream stream]
          exact fun _ same => ⟨_, Option.some.inj same ▸ held'⟩
        · simp only [setObj_self]
          rw [List.append_nil, waiting_stream stream has held, waiting_stream stream rfl held', cut,
            List.map_append]
          exact List.map_append
        · simp only [note_log]
          rw [← List.singleton_append, accepted_append]
          simp [accepted, acceptedBy, World.setObj]
        · simp only [note_log]
          rw [← List.singleton_append, handed_append, handed']
          simp [handed, handedBy, World.setObj]
        · rw [drained, parcels, List.map_eq_nil_iff, List.map_eq_nil_iff]

theorem Linked.add {list : Udpsendlist} (h : Linked list) (addr : Addr) (data : List UInt8) :
    Linked ⟨list.nodes ++ [⟨list.made, addr, data⟩], some list.made, list.made + 1⟩ := by
  have below : ∀ wb ∈ list.nodes, wb.id < list.made := h.made
  refine ⟨by rw [List.getLast?_concat]; rfl, ?_, ?_⟩
  · rw [List.map_append, List.nodup_append]
    refine ⟨h.ids, List.nodup_singleton _, ?_⟩
    intro a old b new
    obtain ⟨wb, mem, rfl⟩ := List.mem_map.mp old
    rw [List.mem_singleton.mp new]
    exact Nat.ne_of_lt (below wb mem)
  · intro wb mem
    rcases List.mem_append.mp mem with old | new
    · exact Nat.lt_succ_of_lt (below wb old)
    · rw [List.mem_singleton.mp new]
      exact Nat.lt_succ_self _

/-- The nodes that are left when the first ones have gone. -/
theorem Linked.rest {list : Udpsendlist} (h : Linked list) {front rest : List Udpbuffer}
    (cut : list.nodes = front ++ rest) :
    Linked ⟨rest, if rest = [] then none else list.tail, list.made⟩ := by
  refine ⟨?_, ?_, fun wb mem => h.made wb (cut ▸ List.mem_append_right front mem)⟩
  · split
    · next none => rw [none]; rfl
    · next some =>
      rw [h.tail, cut, List.getLast?_append_of_ne_nil _ some]
  · have ids := h.ids
    rw [cut, List.map_append] at ids
    exact (List.nodup_append.mp ids).2.1

theorem queueSendlist_moved (kind : r.kind = .udp) {addr : Addr} {data : List UInt8}
    (formed : Formed r.kind (w.objs r)) (ran : queueSendlist r addr data w = .ret () w') :
    Moved r w w' [(some addr, data.map some)] [] := by
  have linked : Linked (w.objs r).sendlist := by
    rw [kind] at formed
    exact formed
  unfold queueSendlist Prog.attempt at ran
  simp only [udpbufferAdd_spec linked] at ran
  cases ran
  constructor
  · rw [note_objs, setObj_self, kind]
    exact linked.add addr data
  · rw [note_objs, setObj_self, kind]
    simp [waiting]
  · rw [note_log, ← List.singleton_append, accepted_append]
    simp [accepted, acceptedBy, World.setObj, parcels]
  · rw [note_log, ← List.singleton_append, handed_append]
    simp [handed, handedBy, World.setObj]

theorem flushSendlist_moved (kind : r.kind = .udp) {out : Flush}
    (formed : Formed r.kind (w.objs r)) (whole : sentWhole (sizes (w.objs r)) w.answers)
    (ran : flushSendlist r w = .ret out w') :
    (∃ left, Moved r w w' [] left) ∧ (out = .drained ↔ waiting r.kind (w'.objs r) = []) := by
  have linked : Linked (w.objs r).sendlist := by
    rw [kind] at formed
    exact formed
  unfold flushSendlist Prog.attempt at ran
  simp only at ran
  split at ran
  case h_2 => cases ran
  case h_1 done =>
    cases ran
    split at done
    case h_1 => cases done
    case h_2 sent looped =>
      cases done
      obtain ⟨front, cut, handed', drained⟩ := sendtoLoop_spec w.answers _ [] w.errno whole looped
      rw [List.nil_append] at handed'
      have rest := linked.rest cut
      simp only [← drained] at rest
      have queue : waiting .udp (w.objs r) =
          front.map (fun wb => (some wb.addr, wb.data.map some)) ++
            sent.nodes.map (fun wb => (some wb.addr, wb.data.map some)) := by
        rw [← List.map_append, ← cut]
        rfl
      simp only [setObj_self, kind]
      refine ⟨⟨front.map fun wb => (some wb.addr, wb.data.map some), ?_, ?_, ?_, ?_⟩, ?_⟩
      · simp only [setObj_self, kind]
        exact rest
      · simp only [setObj_self, kind]
        rw [List.append_nil, queue]
        rfl
      · simp only
        rw [accepted_append]
        simp [accepted, acceptedBy, World.setObj, List.flatMap_map]
      · simp only
        rw [handed_append, handed']
        simp [handed, handedBy, World.setObj, parcels, List.flatMap_map]
        exact List.map_eq_flatMap.symm
      · exact drained.trans List.map_eq_nil_iff.symm

/-- What the write loop of any kind of object does. -/
theorem flushOf_moved {out : Flush} (formed : Formed r.kind (w.objs r))
    (whole : r.kind = .udp → sentWhole (sizes (w.objs r)) w.answers)
    (ran : flushOf r.kind r w = .ret out w') :
    (∃ left, Moved r w w' [] left) ∧ (out = .drained ↔ waiting r.kind (w'.objs r) = []) := by
  have streams : ∀ kind, kind ≠ .udp → flushOf kind = flushSendbuf := by
    intro kind other
    cases kind with
    | udp => exact absurd rfl other
    | tcp | fd => rfl
  by_cases kind : r.kind = .udp
  · rw [show flushOf r.kind = flushSendlist by rw [kind]; rfl] at ran
    exact flushSendlist_moved kind formed (whole kind) ran
  · rw [streams r.kind kind] at ran
    exact flushSendbuf_moved kind formed ran

/-- What an accepted send queues. -/
theorem Sends.moved {o : Origin} {queue : Io Unit} (sends : Sends o r queue)
    (formed : Formed r.kind (w.objs r)) (ran : queue w = .ret () w') :
    ∃ arrived, Moved r w w' arrived [] := by
  cases sends with
  | tcp _ kind _ nonempty =>
      exact ⟨_, queueSendbuf_moved (by rw [kind]; decide) nonempty formed ran⟩
  | udp _ kind _ _ => exact ⟨_, queueSendlist_moved kind formed ran⟩
  | fd _ kind _ nonempty =>
      exact ⟨_, queueSendbuf_moved (by rw [kind]; decide) nonempty formed ran⟩

end Queues

/-! ## Whole datagrams -/

/-- The kernel sends each datagram of the move whole or not at all. -/
def wholeDatagrams (w : World) : Step → Bool
  | .start (.call (.coudpSend r data _)) answers =>
    sentWhole (sizes (w.objs r) ++ [data.length]) answers
  | .start (.call (.coudpClose r _)) answers => sentWhole (sizes (w.objs r)) answers
  | .start .handle answers =>
    match w.tasks with
    | (.write, r) :: _ => r.kind ≠ .udp || sentWhole (sizes (w.objs r)) answers
    | _ => true
  | _ => true

section Flushing
variable {o : Origin} {r : Ref} {w : World}

/-- So does a write loop that the move sets going. -/
theorem Flushes.whole (h : Flushes o r w) (kind : r.kind = .udp)
    (admitted : wholeDatagrams o.world (.start o.action o.world.answers))
    (formed : Formed r.kind (o.world.objs r)) : sentWhole (sizes (w.objs r)) w.answers := by
  cases h with
  | event running =>
      obtain ⟨handling, next⟩ := running
      simp only [wholeDatagrams, handling, next, Bool.or_eq_true, decide_eq_true_eq] at admitted
      exact admitted.resolve_left (not_not.mpr kind)
  | send asked queued here =>
      cases asked with
      | tcp _ other => rw [kind] at other; cases other
      | fd _ other => rw [kind] at other; cases other
      | udp asked =>
          simp only [wholeDatagrams, asked] at admitted
          have linked : Linked (o.world.objs r).sendlist := by
            rw [kind] at formed
            exact formed
          unfold queueSendlist Prog.attempt at queued
          simp only [udpbufferAdd_spec linked] at queued
          cases queued
          obtain ⟨poll, errno, same⟩ := copollRequestWrite_eq _ (o.world.objs r).fd
            (ownerOf r (o.world.objs r)) true
          rw [here, same]
          simpa [sizes, World.setObj, World.note] using admitted
  | close asked here =>
      obtain ⟨-, other⟩ | ⟨asked, -⟩ := asked.asked
      · rw [kind] at other
        cases other
      · simp only [wholeDatagrams, asked] at admitted
        rwa [here]

end Flushing

end Colinlib.Source.Traffic
