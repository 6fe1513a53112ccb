import Colinlib.Guarantees.DatagramDelivery
import Colinlib.Guarantees.SendQueues
import Mathlib.Algebra.Order.Group.Multiset
import Mathlib.Tactic.Abel

/-!
# Datagrams from service to service

Any number of services send datagrams over a network that loses, copies and reorders them,
but does not invent or change any. However their moves interleave, what one UDP object was
shown of another one's datagrams is accounted for: only the network loses or doubles any.
-/
namespace Colinlib.Guarantees.DatagramPath
open Colinlib.Theory Colinlib.Theory.CMemory Colinlib.Theory.Callbacks
open Colinlib.Source Colinlib.Source.IoWorld Colinlib.Source.IoService
open Colinlib.Source.EventLoop Colinlib.Source.IoChanges Colinlib.Source.IoTrace
open Colinlib.Source.Traffic Colinlib.Source.Delivery
open Colinlib.Source.Reception Colinlib.Guarantees.DatagramDelivery
open Colinlib.Guarantees.SendQueues (wholeDatagrams_start)

/-! ## Services and the network between them -/

/-- One use of a slot of one of the services. -/
structure Endpoint (ι : Type) where
  service : ι
  ref : Ref
  life : Nat
  deriving DecidableEq

/-- What a datagram carries. A byte that was never written is none. -/
abbrev Content := List (Option UInt8)

structure Letter where
  source : Addr
  dest : Addr
  content : Content
  deriving DecidableEq, Repr

structure Net (ι : Type) where
  services : ι → Coloop
  flight : Multiset Letter
  lost : Multiset Letter
  copied : Multiset Letter

inductive Hop (ι : Type) where
  | service (i : ι) (m : Step)
  | lose (letter : Letter)
  | copy (letter : Letter)

variable {ι : Type}

section Network
variable (bound : Endpoint ι → Addr) (i : ι)

/-- The datagram that an event says was handed to the kernel. `bound` has the address of
each socket. -/
def postedBy : Event → List Letter
  | .wrote r life cells (some dest) => [⟨bound ⟨i, r, life⟩, dest, cells⟩]
  | _ => []

def posted (log : List Event) : Multiset Letter := log.flatMap (postedBy bound i)

/-- What a move takes from the socket of a UDP object. -/
def arrivals (w : World) (m : Step) : Multiset Letter :=
  match m, w.tasks with
  | .start .handle _, (.read, r) :: _ =>
    if r.kind = .udp then
      ((takenBy r (w.lives r) w m).map fun d =>
        ⟨d.sender, bound ⟨i, r, w.lives r⟩, d.data.map some⟩ : List Letter)
    else 0
  | _, _ => 0

end Network

/-- A kernel sends a datagram whole or not at all, and has for an object only what is under
way to its address. -/
def hop [DecidableEq ι] (bound : Endpoint ι → Addr) (net : Net ι) : Hop ι → Except Fault (Net ι)
  | .service i m =>
    let w := (net.services i).world
    if wholeDatagrams w m ∧ arrivals bound i w m ≤ net.flight then do
      let s ← step coiosSystem (net.services i) m
      let sent := posted bound i s.world.log - posted bound i w.log
      .ok { net with
        services := Function.update net.services i s
        flight := net.flight - arrivals bound i w m + sent }
    else .error .starved
  | .lose letter =>
    if letter ∈ net.flight then
      .ok { net with flight := net.flight.erase letter, lost := letter ::ₘ net.lost }
    else .error .starved
  | .copy letter =>
    if letter ∈ net.flight then
      .ok { net with flight := letter ::ₘ net.flight, copied := letter ::ₘ net.copied }
    else .error .starved

/-- New services. -/
def begin (zeroBlock : ι → Bool) : Net ι := ⟨fun i => start (zeroBlock i), 0, 0, 0⟩

/-! ## The two ends -/

/-- What is in some letters from one address to another. -/
def between (source dest : Addr) (letters : Multiset Letter) : Multiset Content :=
  (letters.filter fun l => l.source = source ∧ l.dest = dest).map Letter.content

/-- The parcels for an address. -/
def sentTo (dest : Addr) (ps : List Parcel) : Multiset Content :=
  ((ps.filter fun p => p.1 = some dest).map Prod.snd : List Content)

/-- The datagrams from an address. -/
def sentFrom (source : Addr) (ds : List Taken) : Multiset Content :=
  ((ds.filter fun d => d.sender = source).map fun d => d.data.map some : List Content)

def Endpoint.world (e : Endpoint ι) (net : Net ι) : World := (net.services e.service).world

def Endpoint.handed (e : Endpoint ι) (dest : Addr) (net : Net ι) : Multiset Content :=
  sentTo dest (Traffic.handed (e.world net).log e.ref e.life)

def Endpoint.accepted (e : Endpoint ι) (dest : Addr) (net : Net ι) : Multiset Content :=
  sentTo dest (Traffic.accepted (e.world net).log e.ref e.life)

def Endpoint.waiting (e : Endpoint ι) (dest : Addr) (net : Net ι) : Multiset Content :=
  sentTo dest (Traffic.waiting e.ref.kind ((e.world net).objs e.ref))

def Endpoint.takes [DecidableEq ι] (e : Endpoint ι) (net : Net ι) : Hop ι → List Taken
  | .service i m => if i = e.service then takenBy e.ref e.life (net.services i).world m else []
  | .lose _ | .copy _ => []

/-- The datagrams an endpoint takes from its socket in a run of the network. -/
def Endpoint.taken [DecidableEq ι] (e : Endpoint ι) (bound : Endpoint ι → Addr)
    (zeroBlock : ι → Bool) (hops : List (Hop ι)) : List Taken :=
  Runs.observed (hop bound) e.takes (begin zeroBlock) hops

def Endpoint.shown (e : Endpoint ι) (net : Net ι) : List Callback :=
  delivered (e.world net).log e.ref e.life

/-- No other endpoint has had this address. -/
def Alone (bound : Endpoint ι → Addr) (e : Endpoint ι) : Prop := ∀ u, bound u = bound e → u = e


section Contents
variable {source dest : Addr}

@[simp] theorem between_zero : between source dest 0 = 0 := rfl

@[simp] theorem between_add (ls ms : Multiset Letter) :
    between source dest (ls + ms) = between source dest ls + between source dest ms := by
  rw [between, Multiset.filter_add, Multiset.map_add]
  rfl

@[simp] theorem between_cons (l : Letter) (ls : Multiset Letter) :
    between source dest (l ::ₘ ls) = between source dest {l} + between source dest ls := by
  rw [← Multiset.singleton_add, between_add]

theorem between_sub {ls ms : Multiset Letter} (le : ms ≤ ls) :
    between source dest ls = between source dest ms + between source dest (ls - ms) := by
  rw [← between_add, add_comm, Multiset.sub_add_cancel le]

theorem between_none {ls : Multiset Letter}
    (other : ∀ l ∈ ls, ¬ (l.source = source ∧ l.dest = dest)) : between source dest ls = 0 := by
  rw [between, Multiset.filter_eq_nil.mpr other, Multiset.map_zero]

@[simp] theorem sentTo_append (ps qs : List Parcel) :
    sentTo dest (ps ++ qs) = sentTo dest ps + sentTo dest qs := by
  simp [sentTo]

@[simp] theorem sentFrom_append (ds es : List Taken) :
    sentFrom source (ds ++ es) = sentFrom source ds + sentFrom source es := by
  simp [sentFrom]

/-- The record has the latest event first, which makes no difference to what was posted. -/
theorem posted_append (bound : Endpoint ι → Addr) (i : ι) (news log : List Event) :
    posted bound i (news ++ log) = posted bound i news + posted bound i log := by
  rw [posted, List.flatMap_append]
  rfl

end Contents

/-! ## What one service does -/

section Ends
variable {bound : Endpoint ι → Addr} {a b : Endpoint ι} {dest source : Addr}

theorem postedBy_between (own : Alone bound a) (e : Event) :
    between (bound a) dest (postedBy bound a.service e) =
      sentTo dest (handedBy a.ref a.life e) := by
  cases e with
  | wrote r life cells address =>
      simp only [handedBy]
      by_cases here : r = a.ref ∧ life = a.life
      · obtain ⟨rfl, rfl⟩ := here
        rw [if_pos ⟨rfl, rfl⟩]
        cases address with
        | none =>
            rw [parcels, sentTo, List.filter_eq_nil_iff.mpr (by simp)]
            rfl
        | some address =>
            by_cases same : address = dest
            · simp [postedBy, parcels, sentTo, between, Multiset.filter_singleton, same]
            · simp [postedBy, parcels, sentTo, between, Multiset.filter_singleton, same]
      · rw [if_neg here]
        apply between_none
        rintro l mem ⟨same, -⟩
        cases address with
        | none => exact absurd mem (List.not_mem_nil)
        | some address =>
            rw [List.mem_singleton.mp mem] at same
            exact here (by rw [← own _ same]; exact ⟨rfl, rfl⟩)
  | _ => rfl

/-- What was posted from an address that only one endpoint has had. -/
theorem posted_between (own : Alone bound a) (log : List Event) :
    between (bound a) dest (posted bound a.service log) =
      sentTo dest (Traffic.handed log a.ref a.life) := by
  induction log with
  | nil => rfl
  | cons e log ih =>
      have one : posted bound a.service [e] = postedBy bound a.service e := by
        rw [posted, List.flatMap_singleton]
      rw [← List.singleton_append, posted_append, between_add, ih, one, postedBy_between own,
        handed_append, sentTo_append, add_comm]
      simp [Traffic.handed]

theorem posted_elsewhere (own : Alone bound a) {i : ι} (other : i ≠ a.service) (log : List Event) :
    between (bound a) dest (posted bound i log) = 0 := by
  apply between_none
  rintro l mem ⟨same, -⟩
  obtain ⟨e, -, posts⟩ := List.mem_flatMap.mp mem
  cases e with
  | wrote r life cells address =>
      cases address with
      | none => cases posts
      | some address =>
          rw [List.mem_singleton.mp posts] at same
          exact other (by rw [← own _ same])
  | _ => cases posts

/-- Where the read handler runs for this use of the slot. -/
def Reads (b : Endpoint ι) (i : ι) (w : World) (m : Step) : Prop :=
  i = b.service ∧ w.lives b.ref = b.life ∧
    ∃ answers rest, m = .start .handle answers ∧ w.tasks = (.read, b.ref) :: rest

theorem reads_of_takes [DecidableEq ι] {net : Net ι} {i : ι} {m : Step} {d : Taken}
    (mem : d ∈ b.takes net (.service i m)) : Reads b i (net.services i).world m := by
  rw [Endpoint.takes] at mem
  split at mem
  · next here =>
    cases m with
    | back answers => cases mem
    | start act answers =>
        obtain ⟨x, taking⟩ := takes_cases mem
        obtain ⟨rest, next⟩ := taking.next
        have handling : act = .handle := taking.handling
        exact ⟨here, taking.present, answers, rest, by rw [handling], next⟩
  · cases mem

/-- What a move takes for an address: what the endpoint takes, and what others do that have
had the address as well. -/
theorem arrivals_between [DecidableEq ι] (udp : b.ref.kind = .udp) (net : Net ι) (i : ι)
    (m : Step) : ∃ strays,
      between source (bound b) (arrivals bound i (net.services i).world m) =
        sentFrom source (b.takes net (.service i m)) + strays ∧
      (Alone bound b → strays = 0) := by
  by_cases reads : Reads b i (net.services i).world m
  · refine ⟨0, ?_, fun _ => rfl⟩
    obtain ⟨rfl, present, answers, rest, rfl, next⟩ := reads
    simp only [arrivals, next, if_pos udp, present, Endpoint.takes, if_true, add_zero]
    simp [between, sentFrom, List.filter_map, Function.comp_def]
  · have none : b.takes net (.service i m) = [] :=
      List.eq_nil_iff_forall_not_mem.mpr fun d mem => reads (reads_of_takes mem)
    refine ⟨_, by rw [none]; exact (zero_add _).symm, fun own => between_none ?_⟩
    rintro l mem ⟨-, same⟩
    unfold arrivals at mem
    split at mem
    · next answers r rest next =>
      split at mem
      · obtain ⟨d, -, rfl⟩ := List.mem_map.mp mem
        have here := own _ same
        rw [← here] at reads
        exact reads ⟨rfl, rfl, answers, rest, rfl, next⟩
      · cases mem
    · cases mem

end Ends

/-! ## The account of two endpoints -/

/-- What has become of the datagrams that one endpoint handed over for the other. -/
structure Carried (bound : Endpoint ι → Addr) (a b : Endpoint ι) (seen : List Taken)
    (net : Net ι) : Prop where
  services : ∀ i, Delivers (· = .udp) (net.services i).world ∧
    Waiting Sound Resumed (net.services i)
  shown : b.shown net = seen.flatMap (Taken.cut b.ref b.life)
  genuine : ∀ c ∈ between (bound a) (bound b) net.copied, c ∈ a.handed (bound b) net
  account : ∃ strays, a.handed (bound b) net + between (bound a) (bound b) net.copied =
      sentFrom (bound a) seen + strays + between (bound a) (bound b) net.lost +
        between (bound a) (bound b) net.flight ∧
    (Alone bound b → strays = 0)

/-- Everything under way or taken is something that was handed over. -/
theorem Carried.known {bound : Endpoint ι → Addr} {a b : Endpoint ι} {seen : List Taken}
    {net : Net ι} (h : Carried bound a b seen net) {c : Content}
    (mem : c ∈ sentFrom (bound a) seen ∨ c ∈ between (bound a) (bound b) net.flight) :
    c ∈ a.handed (bound b) net := by
  obtain ⟨strays, account, -⟩ := h.account
  have total : c ∈ a.handed (bound b) net + between (bound a) (bound b) net.copied := by
    rw [account]
    simp only [Multiset.mem_add]
    tauto
  exact (Multiset.mem_add.mp total).elim id (h.genuine c)

section Hops
variable [DecidableEq ι] {bound : Endpoint ι → Addr} {a b : Endpoint ι} {net net' : Net ι}
  {seen : List Taken}

theorem handed_update (own : Alone bound a) {dest : Addr} {i : ι} {s : Coloop}
    {news : List Event} (log : s.world.log = news ++ (net.services i).world.log)
    (services : net'.services = Function.update net.services i s) :
    a.handed dest net' = a.handed dest net + between (bound a) dest (posted bound i news) := by
  unfold Endpoint.handed Endpoint.world
  by_cases here : i = a.service
  · subst here
    rw [services, Function.update_self, log, handed_append, sentTo_append, posted_between own]
  · rw [services, Function.update_of_ne (Ne.symm here), posted_elsewhere own here, add_zero]

theorem shown_update (udp : b.ref.kind = .udp) {i : ι} {m : Step} {s : Coloop}
    (held : Sound (net.services i).world ∧ Waiting Sound Resumed (net.services i))
    (done : step coiosSystem (net.services i) m = .ok s)
    (services : net'.services = Function.update net.services i s) :
    b.shown net' =
      b.shown net ++ (b.takes net (.service i m)).flatMap (Taken.cut b.ref b.life) := by
  unfold Endpoint.shown Endpoint.world
  by_cases here : i = b.service
  · subst here
    simp only [Endpoint.takes, services, Function.update_self, if_true]
    exact step_delivered (records_of_udp udp) held done
  · simp only [Endpoint.takes, services, Function.update_of_ne (Ne.symm here), if_neg here]
    exact (List.append_nil _).symm

/-- A move of one of the services. -/
theorem Carried.service (h : Carried bound a b seen net) (udp : b.ref.kind = .udp)
    (own : Alone bound a) {i : ι} {m : Step} (taken : hop bound net (.service i m) = .ok net') :
    Carried bound a b (seen ++ b.takes net (.service i m)) net' := by
  simp only [hop] at taken
  split at taken
  · next kernel =>
    obtain ⟨whole, there⟩ := kernel
    obtain ⟨s, done, last⟩ := bind_ok taken
    cases last
    have held := h.services i
    have admitted : Admits (fun _ => Whole (· = .udp)) (net.services i).tags
        (net.services i).world m := by
      cases m with
      | start act answers => exact fun _ => (wholeDatagrams_start _ act answers).trans whole
      | back answers => trivial
    obtain ⟨news, log⟩ := step_log ⟨held.1.sound, held.2⟩ done
    have sent : posted bound i s.world.log - posted bound i (net.services i).world.log =
        posted bound i news := by
      rw [log, posted_append, Multiset.add_sub_cancel_right]
    obtain ⟨strays, arrive, none⟩ :=
      @arrivals_between _ bound b (bound a) _ udp net i m
    obtain ⟨others, account, lone⟩ := h.account
    have left : between (bound a) (bound b) net.flight =
        between (bound a) (bound b) (arrivals bound i (net.services i).world m) +
          between (bound a) (bound b) (net.flight - arrivals bound i (net.services i).world m) :=
      between_sub there
    constructor
    · intro j
      by_cases here : j = i
      · subst here
        simp only [Function.update_self]
        exact step_delivers held admitted done
      · simp only [Function.update_of_ne here]
        exact h.services j
    · rw [shown_update udp ⟨held.1.sound, held.2⟩ done rfl, h.shown, List.flatMap_append]
    · intro c mem
      rw [handed_update own log rfl]
      exact Multiset.mem_add.mpr (.inl (h.genuine c mem))
    · refine ⟨others + strays, ?_, fun alone => by rw [lone alone, none alone, add_zero]⟩
      rw [left, arrive] at account
      rw [handed_update own log rfl, sent, between_add, sentFrom_append, add_right_comm, account]
      abel
  · cases taken

theorem Carried.lose (h : Carried bound a b seen net) {letter : Letter}
    (taken : hop bound net (.lose letter) = .ok net') : Carried bound a b seen net' := by
  simp only [hop] at taken
  split at taken
  · next there =>
    cases taken
    obtain ⟨strays, account, lone⟩ := h.account
    refine ⟨h.services, h.shown, h.genuine, strays, ?_, lone⟩
    have flight := Multiset.cons_erase there
    rw [← flight, between_cons] at account
    simp only [between_cons letter net.lost]
    refine account.trans ?_
    abel
  · cases taken

theorem Carried.copy (h : Carried bound a b seen net) {letter : Letter}
    (taken : hop bound net (.copy letter) = .ok net') : Carried bound a b seen net' := by
  simp only [hop] at taken
  split at taken
  · next there =>
    cases taken
    obtain ⟨strays, account, lone⟩ := h.account
    refine ⟨h.services, h.shown, fun c mem => ?_, strays, ?_, lone⟩
    · simp only [between_cons letter net.copied, Multiset.mem_add] at mem
      rcases mem with new | old
      · refine h.known (.inr ?_)
        rw [← Multiset.cons_erase there, between_cons]
        exact Multiset.mem_add.mpr (.inl new)
      · exact h.genuine c old
    · simp only [between_cons letter]
      change a.handed (bound b) net + _ = _
      rw [add_left_comm, account]
      abel
  · cases taken

theorem Carried.hop (h : Carried bound a b seen net) (udp : b.ref.kind = .udp)
    (own : Alone bound a) {m : Hop ι} (taken : hop bound net m = .ok net') :
    Carried bound a b (seen ++ b.takes net m) net' := by
  cases m with
  | service i m => exact h.service udp own taken
  | lose letter =>
      rw [Endpoint.takes, List.append_nil]
      exact h.lose taken
  | copy letter =>
      rw [Endpoint.takes, List.append_nil]
      exact h.copy taken

end Hops

/-! ## Runs -/

theorem begin_carried (bound : Endpoint ι → Addr) (a b : Endpoint ι) (zeroBlock : ι → Bool) :
    Carried bound a b [] (begin zeroBlock) where
  services i := ⟨delivers_initially _ (zeroBlock i), waiting_rest _⟩
  shown := rfl
  genuine := nofun
  account := ⟨0, rfl, fun _ => rfl⟩

/-- **End to end.** However the moves of any number of services and of the network between them
interleave, a UDP object is shown the datagrams it takes as its buffer cuts them; those that
come from the address of another UDP object were all accepted by this one for sending; none of
them comes twice that the network did not copy; and none is missing that the network did not
lose, that is not under way and that does not wait in the queue of the sender. -/
theorem datagrams_arrive [DecidableEq ι] (bound : Endpoint ι → Addr) (a b : Endpoint ι)
    (zeroBlock : ι → Bool) (hops : List (Hop ι)) (net : Net ι) (udpA : a.ref.kind = .udp)
    (udpB : b.ref.kind = .udp) (own : Alone bound a)
    (reached : Runs.run (hop bound) (begin zeroBlock) hops = .ok net) :
    b.shown net = (b.taken bound zeroBlock hops).flatMap (Taken.cut b.ref b.life) ∧
    (∀ c ∈ sentFrom (bound a) (b.taken bound zeroBlock hops), c ∈ a.accepted (bound b) net) ∧
    sentFrom (bound a) (b.taken bound zeroBlock hops) + between (bound a) (bound b) net.lost +
        between (bound a) (bound b) net.flight ≤
      a.accepted (bound b) net + between (bound a) (bound b) net.copied ∧
    (Alone bound b → Live (a.world net) a.ref → (a.world net).lives a.ref = a.life →
      a.accepted (bound b) net + between (bound a) (bound b) net.copied =
        sentFrom (bound a) (b.taken bound zeroBlock hops) +
          between (bound a) (bound b) net.lost + between (bound a) (bound b) net.flight +
          a.waiting (bound b) net) := by
  have carried : Carried bound a b ([] ++ b.taken bound zeroBlock hops) net :=
    Runs.observed_invariant (fun _ _ _ _ held taken => held.hop udpB own taken) hops []
      (begin zeroBlock) net (begin_carried bound a b zeroBlock) reached
  rw [List.nil_append] at carried
  have slot := (carried.services a.service).1.accounted a.ref udpA
  obtain ⟨later, more⟩ := slot.past a.life
  have accepted : a.accepted (bound b) net =
      a.handed (bound b) net + sentTo (bound b) later := by
    rw [Endpoint.accepted, Endpoint.world, ← more, sentTo_append]
    rfl
  obtain ⟨strays, account, lone⟩ := carried.account
  refine ⟨carried.shown, fun c mem => ?_, ?_, fun alone live now => ?_⟩
  · rw [accepted]
    exact Multiset.mem_add.mpr (.inl (carried.known (.inl mem)))
  · rw [accepted, add_right_comm (a.handed _ _), account]
    refine Multiset.le_iff_exists_add.mpr ⟨strays + sentTo (bound b) later, ?_⟩
    abel
  · have queue : a.accepted (bound b) net = a.handed (bound b) net + a.waiting (bound b) net := by
      have whole := slot.present live
      have now : (net.services a.service).world.lives a.ref = a.life := now
      rw [now] at whole
      rw [Endpoint.accepted, Endpoint.world, whole, sentTo_append]
      rfl
    rw [lone alone, add_zero] at account
    rw [← account, queue, add_right_comm]

def sender : Endpoint Bool := ⟨false, ⟨.udp, 0⟩, 1⟩

def receiver : Endpoint Bool := ⟨true, ⟨.udp, 0⟩, 1⟩

def twoAddresses (e : Endpoint Bool) : Addr :=
  if e = sender then [1] else if e = receiver then [2] else []

/-- The first of two datagrams is copied and taken once; the second one waits. -/
def copiedOnce : List (Hop Bool) :=
  [.service false (.start (.call (.coudpNew .null false)) [.addresses [[1]], .descriptor 5]),
    .service false (.start (.call (.coudpSend ⟨.udp, 0⟩ [7] [2])) [.count 1]),
    .service false (.start (.call (.coudpSend ⟨.udp, 0⟩ [8] [2])) [.failed eagain]),
    .copy ⟨[1], [2], [some 7]⟩,
    .service true (.start (.call (.coudpNew .null false)) [.addresses [[2]], .descriptor 5]),
    .service true (.start (.call (.coudpOnRecv ⟨.udp, 0⟩ (some 1))) []),
    .service true (.start (.wait [⟨5, true, false, false⟩]) []),
    .service true (.start .dispatch []),
    .service true (.start .handle [.datagram [7] [1]])]

theorem datagrams_arrive_copiedOnce :
    ∃ net, Runs.run (hop twoAddresses) (begin fun _ => true) copiedOnce = .ok net ∧
      receiver.shown net = [⟨⟨.udp, 0⟩, 1, 1, .recv [7] (some [1])⟩] ∧
      sender.accepted [2] net = {[some 7], [some 8]} := by
  have network : (Runs.run (hop twoAddresses) (begin fun _ => true) copiedOnce).map (fun net =>
      [net.flight, net.copied, net.lost]) =
      .ok [{⟨[1], [2], [some 7]⟩}, {⟨[1], [2], [some 7]⟩}, 0] := by decide +kernel
  have queue : (Runs.run (hop twoAddresses) (begin fun _ => true) copiedOnce).map (fun net =>
      sender.waiting [2] net) = .ok {[some 8]} := by decide +kernel
  have object : (Runs.run (hop twoAddresses) (begin fun _ => true) copiedOnce).map (fun net =>
      [((sender.world net).objs sender.ref).state, (sender.world net).lives sender.ref]) =
      .ok [Coudp.new, 1] := by decide +kernel
  have taken : receiver.taken twoAddresses (fun _ => true) copiedOnce =
      [⟨512, some 1, [7], [1]⟩] := by decide +kernel
  have here : twoAddresses sender = [1] := by decide
  have there : twoAddresses receiver = [2] := by decide
  have own : Alone twoAddresses sender := by
    intro u same
    rw [here, twoAddresses] at same
    split at same
    · assumption
    · split at same <;> cases same
  have own' : Alone twoAddresses receiver := by
    intro u same
    rw [there, twoAddresses] at same
    split at same
    · cases same
    · split at same
      · assumption
      · cases same
  obtain ⟨net, reached, found⟩ := Runs.reached_of_map network
  rw [reached] at queue object
  have queue : sender.waiting [2] net = {[some 8]} := Except.ok.inj queue
  have object := Except.ok.inj object
  simp only [List.cons.injEq, and_true] at found object
  obtain ⟨shown, -, -, whole⟩ := datagrams_arrive twoAddresses sender receiver _ copiedOnce net rfl
    rfl own reached
  have account := whole own' (by rw [Live, object.1]; decide) object.2
  rw [taken] at shown account
  rw [found.1, found.2.1, found.2.2] at account
  refine ⟨net, reached, shown, ?_⟩
  have sum : sentFrom [1] [⟨512, some 1, [7], [1]⟩] + between [1] [2] 0 +
      between [1] [2] {⟨[1], [2], [some 7]⟩} + {[some 8]} =
      {[some 7], [some 8]} + between [1] [2] {⟨[1], [2], [some 7]⟩} := by decide +kernel
  rw [here, there, queue, sum] at account
  exact add_right_cancel account

end Colinlib.Guarantees.DatagramPath
