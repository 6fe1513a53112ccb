import Colinlib.Source.Reception

/-!
# Datagrams that are received

A read event of a UDP object takes one datagram from its socket. The handler is that of a
stream: it shows what fits its buffer, and takes an empty datagram for the end.
-/
namespace Colinlib.Guarantees.DatagramDelivery
open Colinlib.Theory Colinlib.Theory.Callbacks
open Colinlib.Source.IoWorld Colinlib.Source.IoService Colinlib.Source.EventLoop
open Colinlib.Source.IoChanges Colinlib.Source.IoTrace Colinlib.Source.Reception

/-! ## What is taken and what is shown -/

/-- A datagram taken from a socket: the room for it, the receive callback of the object at
that time, and the datagram itself. -/
structure Taken where
  size : Nat
  fnRecv : Option Nat
  data : List UInt8
  sender : Addr
  deriving DecidableEq, Repr

/-- The call that shows a datagram to the user. -/
def Taken.shown (r : Ref) (life : Nat) (d : Taken) : List Callback :=
  d.fnRecv.toList.map fun fn => ⟨r, life, fn, .recv d.data (some d.sender)⟩

/-- The datagram is not empty and fits the buffer. -/
def Taken.Fits (d : Taken) : Prop := d.data ≠ [] ∧ d.data.length ≤ d.size

/-- What the handler makes of a datagram. -/
def Taken.cut (r : Ref) (life : Nat) (d : Taken) : List Callback :=
  if d.data.take d.size = [] then [] else Taken.shown r life { d with data := d.data.take d.size }

/-- A datagram is taken from the socket whole, and what has no room is lost. -/
def datagrams : Reading (List UInt8 × Addr) Taken where
  data
    | .datagram data sender => some (data, sender)
    | _ => none
  fill len d := (d.1.take len, some d.2)
  record _ obj d := ⟨(ensured obj).recvsize, obj.fnRecv, d.1, d.2⟩
  shown := Taken.cut

/-- What a move takes from the socket of `r`, in one use of the slot. -/
abbrev takenBy := datagrams.takenBy

/-- The datagrams taken from the socket of `r` in a run of a new service. -/
abbrev taken := datagrams.taken

theorem datagrams_records : datagrams.Records .udp where
  reads len a out read := by
    cases a with
    | datagram data sender =>
        cases read
        exact ⟨(data, sender), rfl, rfl⟩
    | _ => cases read
  shows r life obj x kind := by
    change Taken.cut r life ⟨(ensured obj).recvsize, obj.fnRecv, x.1, x.2⟩ = _
    simp only [Taken.cut, Taken.shown, showing, datagrams, kind, deliversOf, or_false,
      Bool.true_eq_false]

theorem records_of_udp {r : Ref} (udp : r.kind = .udp) : datagrams.Records r.kind := by
  rw [udp]
  exact datagrams_records

/-! ## Runs -/

/-- No datagram received for this use of the slot has closed anything, or is about to. -/
structure Unclosed (r : Ref) (life : Nat) (tags : List Callback) (w : World) : Prop where
  sound : Sound w
  told : ∀ c ∈ tags, c.ref = r → c.life = life → c.notice ≠ .close .eof
  ends : ∀ later registered, .ended r later .eof life registered ∉ w.log

section Closing
variable {o : Origin} {r : Ref} {life : Nat} {tags : List Callback} {w w' : World}

/-- A datagram that fits is not read as the end. -/
theorem fits_read {sender : Option Addr} (udp : r.kind = .udp)
    (fits : ∀ d ∈ datagrams.takes r life o, d.Fits) (present : w.lives r = life) :
    ¬ Received o r (.data [] sender) w := by
  intro got
  obtain ⟨d, only, fill⟩ := received_taken (records_of_udp udp) got
  rw [present] at only
  obtain ⟨nonempty, room⟩ := fits _ (by rw [only]; exact List.mem_singleton_self _)
  have nothing : d.1.take (ensured (o.world.objs r)).recvsize = [] := congrArg Prod.fst fill
  exact nonempty ((List.take_of_length_le room).symm.trans nothing)

theorem Unclosed.quiet (h : Unclosed r life tags w) (news : List Event) (sound : Sound w')
    (log : w'.log = news ++ w.log)
    (silent : ∀ later registered, .ended r later .eof life registered ∉ news) :
    Unclosed r life tags w' := by
  refine ⟨sound, h.told, fun later registered mem => ?_⟩
  rw [log] at mem
  exact (List.mem_append.mp mem).elim (silent later registered) (h.ends later registered)

theorem unclosed_kept (udp : r.kind = .udp) :
    Kept (Unclosed r life) fun _ o => ∀ d ∈ datagrams.takes r life o, d.Fits where
  sound h := h.sound
  load _ h := ⟨h.sound.sameObjs rfl rfl rfl, h.told, h.ends⟩
  change underway _ h change := by
    obtain ⟨news, log, about⟩ := change.log
    refine h.quiet news (change.sound h.sound) log fun later registered mem => ?_
    generalize he : Event.ended r later .eof life registered = e at mem
    cases about e mem with
    | queue onQueue =>
        rw [← he] at onQueue
        exact onQueue
    | read => cases he
    | ended finishing =>
        cases he
        cases finishing with
        | eof got => exact fits_read udp underway.admitted rfl got
  enter underway _ h now due := by
    refine ⟨h.sound.note (Nat.le_of_eq now), fun c mem here use => ?_, fun later registered mem => ?_⟩
    · rcases List.mem_cons.mp mem with rfl | below
      · intro notice
        rw [notice] at due
        cases due with
        | eof got =>
            rw [here] at got now
            exact fits_read udp underway.admitted (now.symm.trans use) got
      · exact h.told c below here use
    · exact (List.mem_cons.mp mem).elim nofun (h.ends later registered)
  resume {c _ w _} h resumed := by
    have below : Unclosed r life _ w :=
      ⟨h.sound, fun c mem => h.told c (List.mem_cons_of_mem _ mem), h.ends⟩
    have sound := resumed.sound h.sound
    cases resumed with
    | connect | gone => exact below
    | recv => exact below.quiet [] sound (growRecvbuf_log w _ _) nofun
    | error =>
        exact below.quiet [_] sound (finished_log w _ _ _) (by simp)
    | close notice =>
        refine below.quiet [_] sound (finished_log w _ _ _) fun later registered mem => ?_
        have same := List.mem_singleton.mp mem
        injection same with here _ cause begun _
        exact h.told c List.mem_cons_self here.symm begun.symm (by rw [notice, cause])

end Closing

theorem cut_le_shown (r : Ref) (life : Nat) (d : Taken) :
    (d.cut r life).length ≤ (d.shown r life).length := by
  rw [Taken.cut]
  split
  · exact Nat.zero_le _
  · simp [Taken.shown]

theorem fits_iff_cut {r : Ref} {life : Nat} {d : Taken} (set : d.fnRecv.isSome) :
    d.cut r life = d.shown r life ↔ d.Fits := by
  obtain ⟨fn, set⟩ := Option.isSome_iff_exists.mp set
  constructor
  · intro same
    rw [Taken.cut] at same
    split at same
    · rw [Taken.shown, set] at same
      cases same
    · next some' =>
      simp only [Taken.shown, set, Option.toList, List.map_cons, List.map_nil, List.cons.injEq,
        Callback.mk.injEq, Notice.recv.injEq, true_and, and_true] at same
      refine ⟨fun empty => some' (by rw [empty, List.take_nil]), ?_⟩
      have length := congrArg List.length same
      rw [List.length_take] at length
      omega
  · rintro ⟨nonempty, room⟩
    rw [Taken.cut, List.take_of_length_le room, if_neg nonempty]

/-- Nothing is lost of many datagrams only if nothing is lost of any. -/
theorem cut_all {r : Ref} {life : Nat} {ds : List Taken} (set : ∀ d ∈ ds, d.fnRecv.isSome) :
    ds.flatMap (Taken.cut r life) = ds.flatMap (Taken.shown r life) ↔ ∀ d ∈ ds, d.Fits := by
  rw [flatMap_eq_iff (cut_le_shown r life)]
  exact forall₂_congr fun d mem => fits_iff_cut (set d mem)

/-- The datagrams of a UDP object with a receive callback are shown in order, each once and
whole, and close nothing, if and only if none of them is empty or larger than the buffer it
meets. -/
theorem datagrams_delivered (zeroBlock : Bool) (moves : List Step) (s : Coloop)
    (reached : Runs.run (step coiosSystem) (start zeroBlock) moves = .ok s) (i life : Nat)
    (registered : ∀ d ∈ taken zeroBlock moves ⟨.udp, i⟩ life, d.fnRecv.isSome) :
    (delivered s.world.log ⟨.udp, i⟩ life =
        (taken zeroBlock moves ⟨.udp, i⟩ life).flatMap (Taken.shown ⟨.udp, i⟩ life) ∧
      ∀ later closed, .ended ⟨.udp, i⟩ later .eof life closed ∉ s.world.log) ↔
    ∀ d ∈ taken zeroBlock moves ⟨.udp, i⟩ life, d.Fits := by
  have records : datagrams.Records (Ref.kind ⟨.udp, i⟩) := datagrams_records
  have shown : delivered s.world.log ⟨.udp, i⟩ life =
      (taken zeroBlock moves ⟨.udp, i⟩ life).flatMap (Taken.cut ⟨.udp, i⟩ life) :=
    run_delivered records life reached
  constructor
  · rintro ⟨whole, -⟩
    exact (cut_all registered).mp (shown.symm.trans whole)
  · intro fits
    constructor
    · exact shown.trans ((cut_all registered).mpr fits)
    · have along : Runs.Along (step coiosSystem) (fun s m =>
          Admits (fun _ o => ∀ d ∈ datagrams.takes ⟨.udp, i⟩ life o, d.Fits) s.tags s.world m)
          (start zeroBlock) moves := by
        refine (Runs.along_observed fits).mono fun s m each => ?_
        cases m with
        | start a answers => exact each
        | back answers => trivial
      exact ((unclosed_kept rfl).fromStart ⟨Sound.initially zeroBlock, nofun, nofun⟩ along
        reached).1.ends

/-- A readable UDP object with a receive callback, and what its socket holds. -/
def readable (answers : List Answer) : List Step :=
  [.start (.call (.coudpNew .null false)) [.addresses [[1]], .descriptor 5],
    .start (.call (.coudpOnRecv ⟨.udp, 0⟩ (some 1))) [],
    .start (.wait [⟨5, true, false, false⟩]) [],
    .start .dispatch [],
    .start .handle answers]

theorem datagrams_delivered_oneByte : ∃ s,
    Runs.run (step coiosSystem) (start true) (readable [.failed eintr, .datagram [7] [9]]) = .ok s ∧
      delivered s.world.log ⟨.udp, 0⟩ 1 = [⟨⟨.udp, 0⟩, 1, 1, .recv [7] (some [9])⟩] := by
  have seen : (Runs.run (step coiosSystem) (start true)
      (readable [.failed eintr, .datagram [7] [9]])).map (fun s => s.stack.length) = .ok 1 := by
    decide +kernel
  have only : taken true (readable [.failed eintr, .datagram [7] [9]]) ⟨.udp, 0⟩ 1 =
      [⟨512, some 1, [7], [9]⟩] := by decide +kernel
  obtain ⟨s, reached, -⟩ := Runs.reached_of_map seen
  have whole := (datagrams_delivered true _ s reached 0 1 (by rw [only]; simp)).mpr
    (by rw [only]; simp [Taken.Fits])
  rw [only] at whole
  exact ⟨s, reached, whole.1⟩

/-- An empty datagram is not shown, and closes the object. -/
theorem empty_datagram_closes : ∃ s,
    Runs.run (step coiosSystem) (start true) (readable [.datagram [] [9]]) = .ok s ∧
      taken true (readable [.datagram [] [9]]) ⟨.udp, 0⟩ 1 = [⟨512, some 1, [], [9]⟩] ∧
      delivered s.world.log ⟨.udp, 0⟩ 1 = [] ∧ (s.world.objs ⟨.udp, 0⟩).state = Coudp.invalid ∧
      s.world.log.head? = some (.ended ⟨.udp, 0⟩ 1 .eof 1 false) := by
  have seen : (Runs.run (step coiosSystem) (start true) (readable [.datagram [] [9]])).map
      (fun s => (delivered s.world.log ⟨.udp, 0⟩ 1, (s.world.objs ⟨.udp, 0⟩).state,
        s.world.log.head?)) =
      .ok ([], Coudp.invalid, some (.ended ⟨.udp, 0⟩ 1 .eof 1 false)) := by decide +kernel
  obtain ⟨s, reached, found⟩ := Runs.reached_of_map seen
  simp only [Prod.mk.injEq] at found
  exact ⟨s, reached, by decide +kernel, found⟩

end Colinlib.Guarantees.DatagramDelivery
