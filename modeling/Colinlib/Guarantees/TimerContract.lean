import Colinlib.Source.TimerService
import Colinlib.Source.FallocPool
import Colinlib.Source.WheelSlots
import Colinlib.Guarantees.TimerExactness

/-!
# Timers of the service fire when they were asked to

The service is used by adding and deleting timers and by ticks of its wheel,
whose callbacks add and delete timers in turn. The history of a run says what was
called and what fired; `due` reads from it how many ticks a timer has left. The
run stops only where the caller leaves the contract.
-/
namespace Colinlib.Guarantees.TimerContract
open Colinlib.Theory Colinlib.Theory.CMemory Colinlib.Theory.ByteMemory Colinlib.Theory.Links
open Colinlib.Theory.Runs Colinlib.Source.Clink
open Colinlib.Theory.Histories (ticks ticks_tick ticks_other)
open Colinlib.Source.Falloc Colinlib.Source.TimingWheel Colinlib.Source.TimerService
open Colinlib.Guarantees.TimerExactness (Quiet Room Shrinks quiet_shrinks room_shrinks)

/-- `base` is where the allocator's next memory block is placed. -/
inductive Request where
  | add (base : Nat) (t : Timer)
  | del (item : Nat)
  deriving DecidableEq

/-- `fired call` is the invocation of a timer's callback, or its turn if the
callback is null. -/
inductive Event where
  | added (item : Nat) (t : Timer)
  | deleted (item : Nat)
  | tick
  | fired (call : Invocation)
  deriving DecidableEq

/-- The items of the timers added and not deleted, in a history (newest event
first). -/
def live : List Event → List Nat
  | [] => []
  | .added i _ :: h => i :: live h
  | .deleted i :: h => (live h).erase i
  | _ :: h => live h

/-- The timer an item was last added for. -/
def entry : List Event → Nat → Option Timer
  | [], _ => none
  | .added j t :: h, i => if i = j then some t else entry h i
  | _ :: h, i => entry h i

/-- The ticks before a timer's first turn. -/
def first (t : Timer) : Nat := max t.delay.toNat 1

/-- The ticks before the next turn, at a turn. -/
def again (t : Timer) : Option Nat := if t.loop.toNat = 0 then none else some t.loop.toNat

/-- The ticks a timer has left; `none` when it has no further turn. -/
def due : List Event → Nat → Option Nat
  | [], _ => none
  | .tick :: h, i => (due h i).map (· - 1)
  | .added j t :: h, i => if i = j then some (first t) else due h i
  | .deleted j :: h, i => if i = j then none else due h i
  | .fired call :: h, i => if i = call.item then (entry h i).bind again else due h i

/-- How often an item's timer had its turn. -/
def fires (i : Nat) : List Event → Nat
  | [] => 0
  | .fired call :: h => (if call.item = i then 1 else 0) + fires i h
  | _ :: h => fires i h

/-- The beginning or the end of a timer of item `i`. -/
def Event.Bounds (i : Nat) : Event → Prop
  | .added j _ | .deleted j => j = i
  | _ => False

/-- The invocation a timer in item `i` asks for. -/
def callOf (t : Timer) (i : Nat) : Invocation :=
  { cb := t.cb.toNat, item := i, ud1 := t.ud1.toNat, ud2 := t.ud2.toNat }

/-- Every turn belongs to the timer its item was last added for, is in that
timer's lifetime and its callback, and comes in one of the ticks asked for, each
turn in its own. No turn is missed, unless the timer is deleted first. -/
structure Honoured (hist : List Event) : Prop where
  on_time : ∀ later call pre, hist = later ++ .fired call :: pre →
    ∃ mid t rest, pre = mid ++ .added call.item t :: rest ∧
      (∀ e ∈ mid, ¬ e.Bounds call.item) ∧ call = callOf t call.item ∧
      (t.loop.toNat = 0 → fires call.item mid = 0) ∧
      ticks .tick mid = first t + fires call.item mid * t.loop.toNat
  never_missed : ∀ post i t pre, hist = post ++ .added i t :: pre →
    ∀ k, (t.loop.toNat = 0 → k = 0) → first t + k * t.loop.toNat ≤ ticks .tick post →
      (∃ later mid, post = later ++ .fired (callOf t i) :: mid ∧ (∀ e ∈ mid, ¬ e.Bounds i) ∧
        fires i mid = k ∧ ticks .tick mid = first t + k * t.loop.toNat) ∨
      (∃ later mid, post = later ++ .deleted i :: mid ∧ (∀ e ∈ mid, ¬ e.Bounds i) ∧
        ticks .tick mid ≤ first t + k * t.loop.toNat)

section Histories

/-- The events a history allows next. -/
def Allowed (h : List Event) : Event → Prop
  | .added i _ => i ∉ live h
  | .deleted i => i ∈ live h
  | .tick => ∀ i, due h i ≠ some 0
  | .fired call => due h call.item = some 0 ∧ call.item ∈ live h ∧
      ∃ t, entry h call.item = some t ∧ call = callOf t call.item

abbrev Lawful : List Event → Prop := Histories.Lawful Allowed

theorem Lawful.live_nodup {h : List Event} (lawful : Lawful h) : (live h).Nodup := by
  induction h with
  | nil => exact List.nodup_nil
  | cons e h ih =>
      cases e with
      | added i t => exact List.nodup_cons.mpr ⟨lawful.1, ih lawful.2⟩
      | deleted i => exact (ih lawful.2).erase i
      | tick => exact ih lawful.2
      | fired call => exact ih lawful.2

/-- A live item goes back to the timer it was added for. -/
theorem live_origin {h : List Event} {i : Nat} (lawful : Lawful h) (hi : i ∈ live h) :
    ∃ mid t rest, h = mid ++ .added i t :: rest ∧ (∀ e ∈ mid, ¬ e.Bounds i) := by
  induction h with
  | nil => cases hi
  | cons e h ih =>
      have longer : i ∈ live h → ¬ e.Bounds i → ∃ mid t rest,
          e :: h = mid ++ .added i t :: rest ∧ (∀ e ∈ mid, ¬ e.Bounds i) := by
        intro hi apart
        obtain ⟨mid, t, rest, rfl, hmid⟩ := ih lawful.2 hi
        exact ⟨e :: mid, t, rest, rfl, List.forall_mem_cons.mpr ⟨apart, hmid⟩⟩
      cases e with
      | added j t =>
          by_cases same : j = i
          · subst same
            exact ⟨[], t, h, rfl, by simp⟩
          · exact longer ((List.mem_cons.mp hi).resolve_left (Ne.symm same)) same
      | deleted j =>
          have apart : j ≠ i := by
            intro same
            subst same
            exact absurd hi (Lawful.live_nodup lawful.2).not_mem_erase
          exact longer (List.mem_of_mem_erase hi) apart
      | tick => exact longer hi (fun h => h)
      | fired call => exact longer hi (fun h => h)

/-- What a timer's lifetime so far says about the ticks it has left. -/
def Waiting (i : Nat) (t : Timer) (mid : List Event) (left : Option Nat) : Prop :=
  (∃ r, left = some r ∧ ticks .tick mid + r = first t + fires i mid * t.loop.toNat ∧
    (t.loop.toNat = 0 → fires i mid = 0)) ∨
  (left = none ∧ t.loop.toNat = 0 ∧ fires i mid = 1)

/-- Within its lifetime a timer stays entered, live, and on schedule. -/
theorem lifetime {mid pre : List Event} {i : Nat} {t : Timer}
    (lawful : Lawful (mid ++ .added i t :: pre)) (apart : ∀ e ∈ mid, ¬ e.Bounds i) :
    entry (mid ++ .added i t :: pre) i = some t ∧ i ∈ live (mid ++ .added i t :: pre) ∧
      Waiting i t mid (due (mid ++ .added i t :: pre) i) := by
  induction mid with
  | nil =>
      refine ⟨by simp [entry], by simp [live], .inl ⟨first t, by simp [due], ?_, fun _ => rfl⟩⟩
      simp [ticks, fires]
  | cons e mid ih =>
      obtain ⟨entered, alive, waiting⟩ :=
        ih lawful.2 (fun e he => apart e (List.mem_cons_of_mem _ he))
      have here := apart e (by simp)
      cases e with
      | added j t' =>
          have other : i ≠ j := fun same => here same.symm
          refine ⟨by simpa [entry, other] using entered, List.mem_cons_of_mem _ alive, ?_⟩
          simpa [Waiting, due, other, fires, ticks] using waiting
      | deleted j =>
          have other : i ≠ j := fun same => here same.symm
          refine ⟨entered, (List.mem_erase_of_ne other).mpr alive, ?_⟩
          simpa [Waiting, due, other, fires, ticks] using waiting
      | tick =>
          refine ⟨entered, alive, ?_⟩
          rcases waiting with ⟨r, hr, total, once⟩ | ⟨none, noloop, fired⟩
          · have pos : r ≠ 0 := fun h0 => lawful.1 i (by rw [← h0]; exact hr)
            refine .inl ⟨r - 1, by simp [due, hr], ?_, once⟩
            rw [ticks_tick]
            change ticks .tick mid + 1 + (r - 1) = first t + fires i mid * t.loop.toNat
            omega
          · exact .inr ⟨by simp [due, none], noloop, fired⟩
      | fired call =>
          refine ⟨entered, alive, ?_⟩
          by_cases same : i = call.item
          · have now : due (mid ++ .added i t :: pre) i = some 0 := by
              rw [same]
              rw [same] at lawful
              exact lawful.1.1
            rcases waiting with ⟨r, hr, total, once⟩ | ⟨none, noloop, fired⟩
            · rw [now] at hr
              obtain rfl : 0 = r := Option.some.inj hr
              have count : fires i (.fired call :: mid) = 1 + fires i mid := by
                simp [fires, ← same]
              have left : due (.fired call :: mid ++ .added i t :: pre) i = again t := by
                simp only [List.cons_append, due, if_pos same]
                rw [entered]
                rfl
              rw [left]
              by_cases loop : t.loop.toNat = 0
              · refine .inr ⟨by simp [again, loop], loop, ?_⟩
                rw [count, once loop]
              · refine .inl ⟨t.loop.toNat, by simp [again, loop], ?_, fun h0 => absurd h0 loop⟩
                rw [ticks_other (by simp), count, Nat.add_mul]
                omega
            · rw [now] at none
              cases none
          · have left : due (.fired call :: mid ++ .added i t :: pre) i =
                due (mid ++ .added i t :: pre) i := by
              simp [due, same]
            have count : fires i (.fired call :: mid) = fires i mid := by
              simp [fires, Ne.symm same]
            rw [left]
            simpa [Waiting, ticks_other, count] using waiting

/-- The turn number `k` of a lifetime, in its place and its tick. -/
theorem turn_of_fires {mid pre : List Event} {i : Nat} {t : Timer}
    (lawful : Lawful (mid ++ .added i t :: pre)) (apart : ∀ e ∈ mid, ¬ e.Bounds i) {k : Nat}
    (hk : k < fires i mid) :
    ∃ later mid', mid = later ++ .fired (callOf t i) :: mid' ∧ fires i mid' = k ∧
      ticks .tick mid' = first t + k * t.loop.toNat := by
  induction mid with
  | nil => cases hk
  | cons e mid ih =>
      have apart' : ∀ e ∈ mid, ¬ e.Bounds i := fun e he => apart e (List.mem_cons_of_mem _ he)
      have earlier : k < fires i mid → ∃ later mid',
          e :: mid = later ++ .fired (callOf t i) :: mid' ∧ fires i mid' = k ∧
            ticks .tick mid' = first t + k * t.loop.toNat := by
        intro hk
        obtain ⟨later, mid', rfl, count, total⟩ := ih lawful.2 apart' hk
        exact ⟨e :: later, mid', rfl, count, total⟩
      cases e with
      | added j t' => exact earlier hk
      | deleted j => exact earlier hk
      | tick => exact earlier hk
      | fired call =>
          by_cases last : k < fires i mid
          · exact earlier last
          · have same : call.item = i := by
              by_contra other
              simp only [fires, if_neg other] at hk
              omega
            have count : fires i mid = k := by
              simp only [fires, if_pos same] at hk
              omega
            obtain ⟨entered, _, waiting⟩ := lifetime lawful.2 apart'
            obtain ⟨now, _, t', entered', called⟩ := lawful.1
            rw [same] at now entered' called
            obtain rfl : t = t' := Option.some.inj (entered.symm.trans entered')
            refine ⟨[], mid, by rw [called]; rfl, count, ?_⟩
            rcases waiting with ⟨r, hr, total, -⟩ | ⟨none, -⟩
            · obtain rfl : r = 0 := Option.some.inj (hr.symm.trans now)
              rw [← count]
              exact total
            · cases none.symm.trans now

/-- A timer whose time has passed had its turn. -/
theorem fires_of_elapsed {mid pre : List Event} {i : Nat} {t : Timer}
    (lawful : Lawful (mid ++ .added i t :: pre)) (apart : ∀ e ∈ mid, ¬ e.Bounds i) {k : Nat}
    (once : t.loop.toNat = 0 → k = 0)
    (elapsed : first t + k * t.loop.toNat < ticks .tick mid ∨
      first t + k * t.loop.toNat ≤ ticks .tick mid ∧ due (mid ++ .added i t :: pre) i ≠ some 0) :
    k < fires i mid := by
  obtain ⟨-, -, waiting⟩ := lifetime lawful apart
  rcases waiting with ⟨r, hr, total, never⟩ | ⟨-, noloop, fired⟩
  · have passed : first t + k * t.loop.toNat < first t + fires i mid * t.loop.toNat := by
      rcases elapsed with late | ⟨due, notdue⟩
      · omega
      · have pos : r ≠ 0 := fun h0 => notdue (by rw [hr, h0])
        omega
    by_contra few
    have := Nat.mul_le_mul_right t.loop.toNat (Nat.le_of_not_lt few)
    omega
  · rw [fired, once noloop]
    exact Nat.one_pos

/-- A lifetime goes on, or ended with a deletion. -/
theorem lifetime_end {post pre : List Event} {i : Nat} {t : Timer}
    (lawful : Lawful (post ++ .added i t :: pre)) :
    (∀ e ∈ post, ¬ e.Bounds i) ∨
      ∃ later mid, post = later ++ .deleted i :: mid ∧ (∀ e ∈ mid, ¬ e.Bounds i) := by
  induction post with
  | nil => exact .inl (by simp)
  | cons e post ih =>
      rcases ih lawful.2 with apart | ⟨later, mid, rfl, apart⟩
      · by_cases bound : e.Bounds i
        · cases e with
          | added j t' =>
              obtain rfl : j = i := bound
              exact absurd (lifetime lawful.2 apart).2.1 lawful.1
          | deleted j =>
              obtain rfl : j = i := bound
              exact .inr ⟨[], post, rfl, apart⟩
          | tick => cases bound
          | fired call => cases bound
        · exact .inl (List.forall_mem_cons.mpr ⟨bound, apart⟩)
      · exact .inr ⟨e :: later, mid, rfl, apart⟩

/-- A history that was lawful throughout, with no timer overdue, honours every timer. -/
theorem Lawful.honoured {hist : List Event} (lawful : Lawful hist)
    (settled : ∀ i, due hist i ≠ some 0) : Honoured hist where
  on_time := by
    intro later call pre split
    subst split
    obtain ⟨⟨now, alive, t, entered, called⟩, before⟩ := Histories.Lawful.of_append lawful
    obtain ⟨mid, t', rest, rfl, apart⟩ := live_origin before alive
    obtain ⟨entered', _, waiting⟩ := lifetime before apart
    rw [entered] at entered'
    obtain rfl : t = t' := Option.some.inj entered'
    refine ⟨mid, t, rest, rfl, apart, called, ?_⟩
    rcases waiting with ⟨r, hr, total, once⟩ | ⟨none, -⟩
    · rw [now] at hr
      obtain rfl : 0 = r := Option.some.inj hr
      exact ⟨once, total⟩
    · rw [now] at none
      cases none
  never_missed := by
    intro post i t pre split k once elapsed
    subst split
    rcases lifetime_end lawful with apart | ⟨later, mid, rfl, apart⟩
    · have fired := fires_of_elapsed lawful apart once (.inr ⟨elapsed, settled i⟩)
      obtain ⟨later, mid, rfl, count, total⟩ := turn_of_fires lawful apart fired
      exact .inl ⟨later, mid, rfl, fun e he => apart e (by simp [he]), count, total⟩
    · by_cases early : ticks .tick mid ≤ first t + k * t.loop.toNat
      · exact .inr ⟨later, mid, rfl, apart, early⟩
      · have before : Lawful (mid ++ .added i t :: pre) := by
          have whole : Lawful (later ++ (.deleted i :: (mid ++ .added i t :: pre))) := by
            simpa using lawful
          exact (Histories.Lawful.of_append whole).2
        have fired := fires_of_elapsed before apart once (.inl (Nat.lt_of_not_le early))
        obtain ⟨later', mid', rfl, count, total⟩ := turn_of_fires before apart fired
        refine .inl ⟨later ++ .deleted i :: later', mid', by simp, ?_, count, total⟩
        exact fun e he => apart e (by simp [he])

end Histories

section Machine

/-- How a run stops: at a call outside the contract, at a fault of a call, or at a
fault in a tick. -/
inductive Stop where
  | contract (request : Request)
  | fault (request : Request) (f : Fault)
  | tick (f : Fault)
  deriving DecidableEq

/-- The caller's doing. -/
def Stop.ByCaller : Stop → Prop
  | .contract _ => True
  | _ => False

abbrev World := Cotw × (Store × List Event)

/-- No allocation is placed on another, no callback's address has the free flag for
its low 32 bits, and only handles of timers not yet deleted are deleted. -/
def userStep (self : UInt64) (w : World) (request : Request) : Except Stop World :=
  match request with
  | .add base t =>
    if (w.2.1.alloc.1.freeitem ≠ 0 ∨ Fresh w.2.1.alloc.2 base w.2.1.alloc.1.blocksize) ∧
        t.cb.toNat % 2 ^ 32 ≠ freeFlag then
      match cotsAddTimer self.toNat base (w.1, w.2.1) t with
      | .ok (item, tw, s) => .ok (tw, s, .added item t :: w.2.2)
      | .error f => .error (.fault request f)
    else .error (.contract request)
  | .del item =>
    if item ∈ live w.2.2 then
      match cotsDelTimer (w.1, w.2.1) (some item) with
      | .ok (_, tw, s) => .ok (tw, s, .deleted item :: w.2.2)
      | .error f => .error (.fault request f)
    else .error (.contract request)

def userRun (self : UInt64) : World → List Request → Except Stop World :=
  Runs.run (userStep self)

/-- `_on_timer`, whose user callback makes the calls `behave` gives for the history
it is invoked in. -/
def environment (self : UInt64) (behave : List Event → List Request) :
    Env (Store × List Event) Stop where
  raise := .tick
  call _ cb ud w :=
    if cb = onTimer then
      match onTimerEnter self.toNat ud (w.1, w.2.1) with
      | .ok (call, tw, s) =>
        let hist := .fired call :: w.2.2
        if call.cb = 0 then .ok (tw, s, hist) else userRun self (tw, s, hist) (behave hist)
      | .error f => .error (.tick f)
    else .error (.tick .badPointer)
  quiet _ _ s := s

inductive Action where
  | user (request : Request)
  | tick
  deriving DecidableEq

def step (self : UInt64) (behave : List Event → List Request) (w : World) :
    Action → Except Stop World
  | .user request => userStep self w request
  | .tick => _cotwTick (environment self behave) w.1 (w.2.1, .tick :: w.2.2)

/-- `cots_new`, with the wheel's `currtick` then set to any value. -/
def start (interval currtime : Nat) (currtick : UInt32) (mem : Memory) : World :=
  let sv := cotsNew interval currtime mem
  ({ sv.1 with currtick := currtick.toNat }, sv.2, [])

/-- The ticks the wheel's nodes have left, by their items. -/
def left (items : List Nat) (hist : List Event) (n : Nat) : Option Nat :=
  items[n]?.bind (due hist)

theorem left_nodeOf {items : List Nat} {i : Nat} (hi : i ∈ items) (hist : List Event) :
    left items hist (items.idxOf i) = due hist i := by
  rw [left, List.getElem?_eq_getElem (List.idxOf_lt_length_iff.mpr hi), List.getElem_idxOf]
  rfl

/-- A change of one item's ticks is a change at its node. -/
theorem left_update {items : List Nat} {i : Nat} {hist : List Event} (hist' : List Event)
    {v : Option Nat}
    (nodup : items.Nodup) (hi : i ∈ items)
    (change : ∀ j, due hist' j = if j = i then v else due hist j) :
    left items hist' = Function.update (left items hist) (items.idxOf i) v := by
  funext n
  rw [Function.update_apply]
  split
  · next here =>
    rw [here, left_nodeOf hi, change, if_pos rfl]
  · next other =>
    unfold left
    cases hn : items[n]? with
    | none => rfl
    | some j =>
        obtain ⟨bound, rfl⟩ := List.getElem?_eq_some_iff.mp hn
        have ne : items[n] ≠ i := by
          intro same
          rw [← same, nodup.idxOf_getElem n bound] at other
          exact other rfl
        change due hist' items[n] = due hist items[n]
        rw [change, if_neg ne]

theorem due_live {hist : List Event} (lawful : Lawful hist) {i r : Nat}
    (hr : due hist i = some r) : i ∈ live hist := by
  induction hist generalizing r with
  | nil => cases hr
  | cons e h ih =>
      cases e with
      | added j t =>
          by_cases same : i = j
          · simp [live, same]
          · exact List.mem_cons_of_mem _ (ih lawful.2 (by simpa [due, same] using hr))
      | deleted j =>
          by_cases same : i = j
          · simp [due, same] at hr
          · exact (List.mem_erase_of_ne same).mpr (ih lawful.2 (by simpa [due, same] using hr))
      | tick =>
          cases before : due h i with
          | none => simp [due, before] at hr
          | some r' => exact ih lawful.2 before
      | fired call =>
          by_cases same : i = call.item
          · rw [same]
            exact lawful.1.2.1
          · exact ih lawful.2 (by simpa [due, same] using hr)

/-- The service's memory agrees with the history. `D` says what the list of the tick
in progress may be; `others` are the allocations of the rest of the program. -/
structure Tracks (service : UInt64) (others : List (Nat × Nat)) (D : Option (List Ptr) → Prop)
    (w : World) : Prop where
  stored : ∃ shape, Stored w.1 shape (left w.2.1.items w.2.2) Settled ∧
    Vacant shape .cascadeHead ∧ D (shape .tickHead)
  lawful : Lawful w.2.2
  pool : ∃ bases free, Pool 4096 sizeofTitem others w.2.1.alloc bases free (live w.2.2)
  items : w.2.1.items.Nodup
  nodes : w.1.nodes.length = w.2.1.items.length
  owners : ∀ (n : Nat) (node : Cotnode), w.1.nodes[n]? = some node →
    node.callback = some onTimer ∧ w.2.1.items[n]? = some node.userdata
  known : ∀ i ∈ live w.2.2, i ∈ w.2.1.items
  linked : ∀ i ∈ live w.2.2, w.1.links.next (.node (nodeOf w.2.1 i)) ≠ none
  fields : ∀ i ∈ live w.2.2, ∃ t, entry w.2.2 i = some t ∧
    Fields service.toNat w.2.1.alloc.2.byte i t ∧ t.cb.toNat % 2 ^ 32 ≠ freeFlag

variable {self : UInt64} {others : List (Nat × Nat)} {D : Option (List Ptr) → Prop}

section Registering

variable (s : Store) (item : Nat)

theorem register_alloc : (register s item).alloc = s.alloc := by
  unfold register
  split <;> rfl

theorem register_mem : item ∈ (register s item).items := by
  unfold register
  split
  · assumption
  · simp

theorem register_nodup (h : s.items.Nodup) : (register s item).items.Nodup := by
  unfold register
  split
  · exact h
  · next new =>
    refine List.nodup_append.mpr ⟨h, by simp, ?_⟩
    intro x hx y hy same
    rw [List.mem_singleton.mp hy] at same
    exact new (same ▸ hx)

theorem register_nodeOf {i : Nat} (hi : i ∈ s.items) :
    i ∈ (register s item).items ∧ nodeOf (register s item) i = nodeOf s i := by
  unfold register
  split
  · exact ⟨hi, rfl⟩
  · exact ⟨List.mem_append_left _ hi, List.idxOf_append_of_mem hi⟩

/-- The node of a new timer is one the wheel knows, or the next. -/
theorem register_new : (item ∈ s.items ∧ nodeOf (register s item) item < s.items.length ∧
      (register s item).items = s.items) ∨
    (nodeOf (register s item) item = s.items.length ∧
      (register s item).items = s.items ++ [item]) := by
  unfold register
  split
  · next old => exact .inl ⟨old, List.idxOf_lt_length_iff.mpr old, rfl⟩
  · next new =>
    refine .inr ⟨?_, rfl⟩
    simp only [nodeOf, List.idxOf_append_of_notMem new, List.idxOf_cons_self, Nat.add_zero]

theorem register_left {hist : List Event} (none : due hist item = none) :
    left (register s item).items hist = left s.items hist := by
  rcases register_new s item with ⟨-, -, same⟩ | ⟨-, more⟩
  · rw [same]
  · rw [more]
    funext n
    unfold left
    rw [List.getElem?_append]
    split
    · rfl
    · rw [List.getElem?_eq_none (l := s.items) (by omega)]
      cases h : [item][n - s.items.length]? with
      | none => rfl
      | some j =>
          have hj := List.mem_of_getElem? h
          obtain rfl := List.mem_singleton.mp hj
          exact none

end Registering

/-- The memory of a new timer: an item no timer has, with its fields. -/
theorem add_memory {w : World} (h : Tracks self others D w) {base : Nat} (t : Timer)
    (room : w.2.1.alloc.1.freeitem ≠ 0 ∨ Fresh w.2.1.alloc.2 base w.2.1.alloc.1.blocksize) :
    ∃ item alloc mem byte, cofallocNewitem base w.2.1.alloc = .ok (item, alloc, mem) ∧
      fill mem self.toNat item t = .ok { mem with byte } ∧
      (∃ bases free, Pool 4096 sizeofTitem others (alloc, { mem with byte }) bases free
        (item :: live w.2.2)) ∧
      item ∉ live w.2.2 ∧ Fields self.toNat byte item t ∧
      ∀ i ∈ live w.2.2, ∀ t', Fields self.toNat w.2.1.alloc.2.byte i t' →
        Fields self.toNat byte i t' := by
  obtain ⟨bases, free, pool⟩ := h.pool
  rw [pool.blocksize] at room
  obtain ⟨item, ⟨alloc, mem⟩, bases', free', taken, pool', kept⟩ := pool.newitem_kept room
  have inside := pool'.held_carved (i := item) (by simp)
  obtain ⟨pos, -, owned⟩ := pool'.owned inside
  have new : item ∉ live w.2.2 := by
    have once := (List.nodup_append.mp (pool'.division.nodup_iff.mpr pool'.nodup)).2.1
    exact (List.nodup_cons.mp once).1
  obtain ⟨byte, filled, fields, outside⟩ := fill_spec (t := t) self.toNat_lt pos owned
  refine ⟨item, alloc, mem, byte, taken, filled, ⟨bases', free',
    pool'.write_held (by simp) byte outside⟩, new, fields, ?_⟩
  intro i hi t' before
  apply before.congr
  intro x lo hi'
  have ne : item ≠ i := fun same => new (same ▸ hi)
  exact (pool'.held_frame (by simp) (List.mem_cons_of_mem _ hi) ne outside lo hi').trans
    (kept i hi x lo hi')

theorem nodeOf_ne {s : Store} {i j : Nat} (hi : i ∈ s.items) (ne : i ≠ j) :
    nodeOf s i ≠ nodeOf s j := fun same => ne ((List.idxOf_inj hi).mp same)

/-- The wheel's nodes once a new timer has its own. -/
theorem add_owners {w : World} (h : Tracks self others D w) {item : Nat} {tw : Cotw}
    {alloc : Cofalloc × Memory} {expire : Nat}
    (nodes : tw.nodes =
      (cotwNodeInit w.1 (nodeOf (register { w.2.1 with alloc } item) item) (some onTimer) item).nodes.set
        (nodeOf (register { w.2.1 with alloc } item) item)
        { userdata := item, callback := some onTimer, expire }) :
    tw.nodes.length = (register { w.2.1 with alloc } item).items.length ∧
      ∀ (n : Nat) (node : Cotnode), tw.nodes[n]? = some node → node.callback = some onTimer ∧
        (register { w.2.1 with alloc } item).items[n]? = some node.userdata := by
  have new := register_new { w.2.1 with alloc } item
  have mine : (register { w.2.1 with alloc } item).items[nodeOf (register { w.2.1 with alloc }
      item) item]? = some item := by
    rw [nodeOf, List.getElem?_eq_getElem (List.idxOf_lt_length_iff.mpr (register_mem _ _)),
      List.getElem_idxOf]
  have count := h.nodes
  constructor
  · rw [nodes, List.length_set, cotwNodeInit_length, count]
    rcases new with ⟨-, lt, same⟩ | ⟨last, more⟩
    · rw [if_pos lt, same]
    · rw [last, if_neg (Nat.lt_irrefl _), more, List.length_append, List.length_singleton]
  · intro n node hn
    have bound : nodeOf (register { w.2.1 with alloc } item) item ≤ w.1.nodes.length := by
      rw [count]
      rcases new with ⟨-, lt, -⟩ | ⟨last, -⟩
      · exact Nat.le_of_lt lt
      · exact Nat.le_of_eq last
    by_cases here : n = nodeOf (register { w.2.1 with alloc } item) item
    · rw [nodes, List.getElem?_set, if_pos here.symm] at hn
      split at hn
      · cases hn
        exact ⟨rfl, by rw [here, mine]⟩
      · cases hn
    · rw [nodes, List.getElem?_set_ne (Ne.symm here), cotwNodeInit_nodes _ _ bound,
        if_neg here] at hn
      obtain ⟨callback, owner⟩ := h.owners n node hn
      refine ⟨callback, ?_⟩
      rcases new with ⟨-, -, same⟩ | ⟨-, more⟩
      · rw [same]
        exact owner
      · rw [more, List.getElem?_append_left (List.getElem?_eq_some_iff.mp owner).1]
        exact owner

theorem first_eq (t : Timer) :
    first t = if 0 < t.delay.toNat then t.delay.toNat else 1 := by
  unfold first
  split <;> omega

theorem add_tracks {w : World} (h : Tracks self others D w) {base : Nat} (t : Timer)
    (room : w.2.1.alloc.1.freeitem ≠ 0 ∨ Fresh w.2.1.alloc.2 base w.2.1.alloc.1.blocksize)
    (flag : t.cb.toNat % 2 ^ 32 ≠ freeFlag) :
    ∃ item tw s, cotsAddTimer self.toNat base (w.1, w.2.1) t = .ok (item, tw, s) ∧
      Tracks self others D (tw, s, .added item t :: w.2.2) := by
  obtain ⟨tw, s, hist⟩ := w
  obtain ⟨item, alloc, mem, byte, taken, filled, pool, new, fields, kept⟩ := add_memory h t room
  have nodue : due hist item = none := by
    cases hd : due hist item with
    | none => rfl
    | some r => exact absurd (due_live h.lawful hd) new
  obtain ⟨shape, stored, vacant, listed⟩ := h.stored
  simp only at stored
  rw [← register_left { s with alloc := (alloc, { mem with byte }) } item nodue] at stored
  have idle : left (register { s with alloc := (alloc, { mem with byte }) } item).items hist
      (nodeOf (register { s with alloc := (alloc, { mem with byte }) } item) item) = none :=
    (left_nodeOf (register_mem _ _) hist).trans nodue
  have bound : nodeOf (register { s with alloc := (alloc, { mem with byte }) } item) item ≤
      tw.nodes.length := by
    rw [show tw.nodes.length = s.items.length from h.nodes]
    rcases register_new { s with alloc := (alloc, { mem with byte }) } item with
      ⟨-, lt, -⟩ | ⟨last, -⟩
    · exact Nat.le_of_lt lt
    · exact Nat.le_of_eq last
  obtain ⟨shape₁, stored₁, other₁⟩ := stored.nodeInit (some onTimer) item settled_node idle bound
  have hnode := cotwNodeInit_nodes (some onTimer) item bound
    (nodeOf (register { s with alloc := (alloc, { mem with byte }) } item) item)
  rw [if_pos rfl] at hnode
  have small : first t < 2 ^ 32 := by
    have := t.delay.toNat_lt
    unfold first
    omega
  obtain ⟨tw₂, shape₂, added, nodes, stored₂, other₂⟩ :=
    stored₁.add hnode idle small (first_eq t)
  obtain ⟨count, owners⟩ := add_owners h nodes
  have nodup := register_nodup { s with alloc := (alloc, { mem with byte }) } item h.items
  have history := left_update (.added item t :: hist) nodup (register_mem _ _)
    (v := some (first t)) (fun j => rfl)
  rw [nodeOf, ← history] at stored₂
  refine ⟨item, tw₂, register { s with alloc := (alloc, { mem with byte }) } item, ?_, ?_⟩
  · rw [cotsAddTimer]
    simp only [taken, ok_bind, filled, added]
  · refine ⟨⟨shape₂, stored₂, ?_, ?_⟩, ⟨new, h.lawful⟩, ?_, nodup, count, owners,
      ?_, ?_, ?_⟩
    · intro ys hys
      rw [other₂ .cascadeHead (fun h => h) (by simp), other₁ .cascadeHead (by simp)] at hys
      exact vacant ys hys
    · rw [other₂ .tickHead (fun h => h) (by simp), other₁ .tickHead (by simp)]
      exact listed
    · obtain ⟨bases, free, pool⟩ := pool
      refine ⟨bases, free, ?_⟩
      rw [register_alloc]
      exact pool
    · intro i hi
      rcases List.mem_cons.mp hi with rfl | hi
      · exact register_mem _ _
      · exact (register_nodeOf { s with alloc := (alloc, { mem with byte }) } item
          (h.known i hi)).1
    · intro i hi
      rcases List.mem_cons.mp hi with rfl | hi
      · exact stored₂.next_of_pending (r := first t)
          ((left_nodeOf (register_mem _ _) _).trans (by simp [due]))
      · obtain ⟨mem_i, same⟩ := register_nodeOf
          { s with alloc := (alloc, { mem with byte }) } item (h.known i hi)
        have ne : i ≠ item := fun equal => new (equal ▸ hi)
        have apart := nodeOf_ne mem_i ne
        apply cotwAdd_linked added
        rw [cotwNodeInit_next _ _ (by simpa using apart), same]
        exact h.linked i hi
    · intro i hi
      rw [register_alloc]
      rcases List.mem_cons.mp hi with rfl | hi
      · exact ⟨t, by simp [entry], fields, flag⟩
      · obtain ⟨t', entered, before, unmarked⟩ := h.fields i hi
        have ne : i ≠ item := fun equal => new (equal ▸ hi)
        exact ⟨t', by simpa [entry, ne] using entered, kept i hi t' before, unmarked⟩

/-- `cotw_del` of a live timer's node leaves it not pending, whether or not it was. -/
theorem del_wheel (shrinks : Shrinks D) {tw : Cotw} {shape : Shape Ptr} {pending : Nat → Option Nat}
    (stored : Stored tw shape pending Settled) (vacant : Vacant shape .cascadeHead)
    (listed : D (shape .tickHead)) {n : Nat} (hn : n < tw.nodes.length)
    (linked : tw.links.next (.node n) ≠ none) :
    ∃ r tw' shape', cotwDel tw n = .ok (r, tw') ∧ tw'.nodes = tw.nodes ∧
      Stored tw' shape' (Function.update pending n none) Settled ∧ Vacant shape' .cascadeHead ∧
      D (shape' .tickHead) := by
  cases hp : pending n with
  | none =>
      refine ⟨0, tw, shape, stored.del_linked hn hp linked, rfl, ?_, vacant, listed⟩
      rwa [Function.update_eq_self_iff.mpr hp.symm]
  | some r =>
      obtain ⟨tw', shape', hrun, hnodes, hstored, hsome, hnone⟩ := stored.del_pending hp
      refine ⟨1, tw', shape', hrun, hnodes, hstored, ?_, ?_⟩
      · intro ys hys
        cases hc : shape .cascadeHead with
        | none =>
            rw [hnone .cascadeHead (by simp) hc] at hys
            cases hys
        | some zs =>
            rw [hsome .cascadeHead zs (by simp) hc, vacant zs hc] at hys
            exact (Option.some.inj hys).symm
      · cases ht : shape .tickHead with
        | none =>
            rw [hnone .tickHead (by simp) ht]
            rwa [ht] at listed
        | some zs =>
            rw [hsome .tickHead zs (by simp) ht]
            rw [ht] at listed
            exact shrinks zs _ listed

theorem Tracks.node_lt {w : World} (h : Tracks self others D w) {i : Nat} (hi : i ∈ live w.2.2) :
    nodeOf w.2.1 i < w.1.nodes.length := by
  rw [h.nodes]
  exact List.idxOf_lt_length_iff.mpr (h.known i hi)

theorem del_tracks (shrinks : Shrinks D) {w : World} (h : Tracks self others D w) {item : Nat}
    (alive : item ∈ live w.2.2) :
    ∃ tw s, cotsDelTimer (w.1, w.2.1) (some item) = .ok (some 0, tw, s) ∧
      Tracks self others D (tw, s, .deleted item :: w.2.2) := by
  obtain ⟨tw, s, hist⟩ := w
  obtain ⟨bases, free, pool⟩ := h.pool
  obtain ⟨shape, stored, vacant, listed⟩ := h.stored
  obtain ⟨t, entered, fields, unmarked⟩ := h.fields item alive
  have inside := pool.held_carved alive
  have flag : wordAt s.alloc.2.byte 4 (item + flagOffset) ≠ freeFlag := by
    rw [fields.flag]
    exact unmarked
  obtain ⟨r, tw', shape', deleted, nodes, stored', vacant', listed'⟩ :=
    del_wheel shrinks stored vacant listed (h.node_lt alive) (h.linked item alive)
  obtain ⟨alloc, freed, pool', mem⟩ := pool.freeitem alive flag
  have once := h.lawful.live_nodup
  rw [nodeOf, ← left_update (.deleted item :: hist) h.items (h.known item alive)
    (fun j => rfl)] at stored'
  refine ⟨tw', { s with alloc }, ?_, ⟨⟨shape', stored', vacant', listed'⟩, ⟨alive, h.lawful⟩,
    ⟨bases, item :: free, pool'⟩, h.items, by rw [nodes]; exact h.nodes, ?_, ?_, ?_, ?_⟩⟩
  · have pos := (pool.owned inside).1
    have reported := pool.isfree inside
    rw [beq_false_of_ne flag] at reported
    rw [cotsDelTimer]
    simp only at reported freed
    simp only [if_neg (Nat.pos_iff_ne_zero.mp pos), reported, ok_bind, deleted, freed]
    rfl
  · rw [nodes]
    exact h.owners
  · exact fun i hi => h.known i (List.mem_of_mem_erase hi)
  · exact fun i hi => cotwDel_linked deleted _ (h.linked i (List.mem_of_mem_erase hi))
  · intro i hi
    obtain ⟨ne, hi⟩ := once.mem_erase_iff.mp hi
    obtain ⟨t', entered', before, unmarked'⟩ := h.fields i hi
    refine ⟨t', entered', ?_, unmarked'⟩
    rw [mem]
    apply before.congr
    intro x lo hi'
    exact pool.held_frame alive hi (Ne.symm ne)
      (fun y hy => stamp_same (by unfold sizeofTitem sizeofBlockitem at *; omega)) lo hi'

/-- The wheel is the old one but for expiry times and links that were set. -/
structure SameNodes (tw tw' : Cotw) : Prop where
  length : tw'.nodes.length = tw.nodes.length
  node : ∀ (n : Nat) (node' : Cotnode), tw'.nodes[n]? = some node' →
    ∃ node, tw.nodes[n]? = some node ∧ node'.callback = node.callback ∧
      node'.userdata = node.userdata
  linked : StaysLinked tw.links tw'.links

/-- `_on_timer` up to the user callback: a periodic timer is pending again. -/
theorem onTimerEnter_spec {tw : Cotw} (tw₁ : Cotw) {s : Store} {hist : List Event} {shape : Shape Ptr}
    (h : Tracks self others D (tw, s, hist)) {item : Nat} {t : Timer} (alive : item ∈ live hist)
    (entered : entry hist item = some t) (nodes : tw₁.nodes = tw.nodes)
    (stored : Stored tw₁ shape (Function.update (left s.items hist) (nodeOf s item) none) Settled) :
    ∃ tw₂ shape₂, onTimerEnter self.toNat item (tw₁, s) = .ok (callOf t item, tw₂, s) ∧
      Stored tw₂ shape₂ (left s.items (.fired (callOf t item) :: hist)) Settled ∧
      (∀ p, ¬ IsSlot p → (∀ n, p ≠ .node n) → shape₂ p = shape p) ∧ SameNodes tw₁ tw₂ := by
  obtain ⟨bases, free, pool⟩ := h.pool
  obtain ⟨t', entered', fields, -⟩ := h.fields item alive
  obtain rfl : t = t' := Option.some.inj (entered.symm.trans entered')
  obtain ⟨pos, -, owned⟩ := pool.owned (pool.held_carved alive)
  have field : ∀ off n, off + n ≤ sizeofTitem →
      load s.alloc.2 n (item + off) = .ok (wordAt s.alloc.2.byte n (item + off)) :=
    fun off n inside => load_ok (by omega) (owned.inner (by omega) (by omega))
  have turn : ∀ {tw₂ : Cotw},
      (if t.loop.toNat ≠ 0 then cotwAdd tw₁ (nodeOf s item) t.loop.toNat else .ok tw₁) = .ok tw₂ →
      onTimerEnter self.toNat item (tw₁, s) = .ok (callOf t item, tw₂, s) := by
    intro tw₂ wheel
    rw [onTimerEnter, callOf, ← fields.cb, ← fields.ud1, ← fields.ud2]
    simp only [field svOffset 8 (by decide), field loopOffset 4 (by decide),
      field cbOffset 8 (by decide), field ud1Offset 8 (by decide), field ud2Offset 8 (by decide),
      ok_bind, fields.sv, ne_eq, not_true, if_false, fields.loop]
    by_cases zero : t.loop.toNat = 0
    · simp only [zero, ne_eq, not_true, if_false] at wheel ⊢
      cases wheel
      rfl
    · simp only [zero, ne_eq, not_false_eq_true, if_true] at wheel ⊢
      rw [wheel, ok_bind]
  have history : left s.items (.fired (callOf t item) :: hist) =
      Function.update (left s.items hist) (nodeOf s item) (again t) := by
    apply left_update _ h.items (h.known item alive)
    intro j
    by_cases same : j = item
    · subst same
      simp [due, callOf, entered]
    · simp [due, callOf, same]
  by_cases loop : t.loop.toNat = 0
  · refine ⟨tw₁, shape, turn (by rw [if_neg (by simp [loop])]), ?_, fun _ _ _ => rfl, rfl,
      fun n node' hn => ⟨node', hn, rfl, rfl⟩, fun _ hp => hp⟩
    rw [history, again, if_pos loop]
    exact stored
  · have bound : nodeOf s item < tw₁.nodes.length := by
      rw [nodes]
      exact h.node_lt alive
    obtain ⟨tw₂, shape₂, added, nodes₂, stored₂, other⟩ :=
      stored.add (List.getElem?_eq_getElem bound) (Function.update_self _ _ _) t.loop.toNat_lt
        (if_pos (Nat.pos_of_ne_zero loop)).symm
    refine ⟨tw₂, shape₂, turn (by rw [if_pos loop, added]), ?_, fun p hp hn => other p hp (hn _),
      by rw [nodes₂, List.length_set], ?_, cotwAdd_linked added⟩
    · rw [Function.update_idem] at stored₂
      rw [history, again, if_neg loop]
      exact stored₂
    · intro n node' hn
      rw [nodes₂, List.getElem?_set] at hn
      split at hn
      · next here =>
        subst here
        cases hn
        exact ⟨_, List.getElem?_eq_getElem bound, rfl, rfl⟩
      · exact ⟨node', hn, rfl, rfl⟩

theorem userStep_tracks (shrinks : Shrinks D) (w : World) (request : Request)
    (h : Tracks self others D w) :
    Outcome Stop.ByCaller (Tracks self others D) (userStep self w request) := by
  cases request with
  | add base t =>
      rw [userStep]
      split
      · next allowed =>
        obtain ⟨item, tw, s, added, tracks⟩ := add_tracks h t allowed.1 allowed.2
        rw [added]
        exact tracks
      · trivial
  | del item =>
      rw [userStep]
      split
      · next alive =>
        obtain ⟨tw, s, deleted, tracks⟩ := del_tracks shrinks h alive
        rw [deleted]
        exact tracks
      · trivial

theorem userRun_tracks (shrinks : Shrinks D) (requests : List Request) (w : World)
    (h : Tracks self others D w) :
    Outcome Stop.ByCaller (Tracks self others D) (userRun self w requests) :=
  outcome_run _ _ _ (fun w request h => userStep_tracks shrinks w request h) requests w h

/-- The node taken off the tick's list belongs to a live timer that is due. -/
theorem Tracks.taken {w : World} (h : Tracks self others D w) {n : Nat} {node : Cotnode}
    (hnode : w.1.nodes[n]? = some node) (now : left w.2.1.items w.2.2 n = some 0) :
    node.callback = some onTimer ∧ node.userdata ∈ live w.2.2 ∧
      due w.2.2 node.userdata = some 0 ∧ nodeOf w.2.1 node.userdata = n := by
  obtain ⟨callback, owner⟩ := h.owners n node hnode
  have isdue : due w.2.2 node.userdata = some 0 := by
    rw [left, owner] at now
    exact now
  refine ⟨callback, due_live h.lawful isdue, isdue, ?_⟩
  obtain ⟨bound, same⟩ := List.getElem?_eq_some_iff.mp owner
  rw [nodeOf, ← same]
  exact h.items.idxOf_getElem n bound

/-- A round of the drain loop: the list is empty, or the timer of its first node has
its turn, and its callback can only shorten the list. -/
theorem drain_round (behave : List Event → List Request) (k : Nat) (w : World)
    (h : Tracks self others (Room k) w) :
    (coclinkIsEmpty w.1.links .tickHead = true ∧ Tracks self others Quiet w) ∨
    (coclinkIsEmpty w.1.links .tickHead = false ∧ ∃ j n tw node, k = j + 1 ∧
      popFront w.1 .tickHead = .ok (n, tw) ∧ getNode tw n = .ok node ∧
      Outcome Stop.ByCaller (Tracks self others (Room j))
        (deliver (environment self behave) n node (tw, w.2))) := by
  obtain ⟨tw, s, hist⟩ := w
  obtain ⟨shape, stored, vacant, xs, hxs, hlen⟩ := h.stored
  cases xs with
  | nil =>
      refine .inl ⟨(coclinkIsEmpty_iff stored.rings hxs).mpr rfl, { h with stored := ?_ }⟩
      refine ⟨shape, stored, vacant, fun ys hys => ?_⟩
      exact (Option.some.inj (hxs.symm.trans hys)).symm
  | cons x rest =>
      obtain ⟨j, rfl⟩ : ∃ j, k = j + 1 := by
        cases k with
        | zero => cases hlen
        | succ j => exact ⟨j, rfl⟩
      have more : coclinkIsEmpty tw.links .tickHead = false := by
        cases hempty : coclinkIsEmpty tw.links .tickHead with
        | false => rfl
        | true => cases (coclinkIsEmpty_iff stored.rings hxs).mp hempty
      obtain ⟨n, node, r, links', shape', popped, hnode, hleft, _, _, fit, stored', hrest,
        vacant'⟩ := stored.popFront (by simp) hxs
      obtain rfl : r = 0 := fit.1
      obtain ⟨callback, alive, now, same⟩ := h.taken hnode hleft
      obtain ⟨t, entered, -⟩ := h.fields _ alive
      have got : getNode { tw with links := links' } n = .ok node := by rw [getNode, hnode]
      refine .inr ⟨more, j, n, _, node, rfl, popped, got, ?_⟩
      subst same
      obtain ⟨tw₂, shape₂, enter, stored₂, other, nodes⟩ :=
        onTimerEnter_spec { tw with links := links' } h alive entered rfl stored'
      have fired : Tracks self others (Room j)
          (tw₂, s, .fired (callOf t node.userdata) :: hist) := by
        refine ⟨⟨shape₂, stored₂, ?_, rest, ?_, by simpa using hlen⟩,
          ⟨⟨now, alive, t, entered, rfl⟩, h.lawful⟩, h.pool, h.items, ?_, ?_, h.known, ?_, h.fields⟩
        · intro ys hys
          rw [other .cascadeHead (fun h => h) (by simp)] at hys
          exact vacant' .cascadeHead (by simp) vacant ys hys
        · rw [other .tickHead (fun h => h) (by simp)]
          exact hrest
        · exact nodes.length.trans h.nodes
        · intro m node' hm
          obtain ⟨old, hold, hcb, hud⟩ := nodes.node m node' hm
          obtain ⟨cb, owner⟩ := h.owners m old hold
          exact ⟨hcb.trans cb, by rw [hud]; exact owner⟩
        · intro i hi
          exact nodes.linked _ (popFront_linked popped _ (h.linked i hi))
      simp only [deliver, callback, environment, if_true, enter]
      split
      · exact fired
      · exact userRun_tracks (room_shrinks j) _ _ fired

/-- Between ticks no timer is due. -/
theorem Tracks.not_due {w : World} (h : Tracks self others Quiet w) (i : Nat) :
    due w.2.2 i ≠ some 0 := by
  intro hdue
  obtain ⟨shape, stored, _, quiet⟩ := h.stored
  have known := h.known i (due_live h.lawful hdue)
  have hleft : left w.2.1.items w.2.2 (nodeOf w.2.1 i) = some 0 :=
    (left_nodeOf known _).trans hdue
  obtain ⟨p, xs, hp, hmem⟩ := stored.linked _ 0 hleft
  obtain ⟨_, _, _, _, _, hpos⟩ := stored.member_node hp hmem hleft
  have hpt : p ≠ .tickHead := by
    intro same
    subst same
    rw [quiet xs hp] at hmem
    cases hmem
  exact absurd (hpos hpt) (Nat.lt_irrefl 0)

theorem left_tick (items : List Nat) (hist : List Event) :
    left items (.tick :: hist) = elapse (left items hist) := by
  funext n
  change items[n]?.bind (fun i => (due hist i).map (· - 1)) =
    (items[n]?.bind (due hist)).map (· - 1)
  cases items[n]? <;> rfl

theorem cotwTick_tracks (behave : List Event → List Request) (w : World)
    (h : Tracks self others Quiet w) :
    Outcome Stop.ByCaller (Tracks self others Quiet)
      (_cotwTick (environment self behave) w.1 (w.2.1, .tick :: w.2.2)) := by
  obtain ⟨shape, stored, vacant, quiet⟩ := h.stored
  obtain ⟨links', shape', xs, advanced, stored', hxs, vacant'⟩ := advance_spec stored vacant quiet
  have linked := advance_linked advanced
  rw [_cotwTick, advanced]
  refine drainLoop_outcome (drain_round behave) _ _ ?_
  refine ⟨⟨shape', ?_, vacant', xs, hxs, stored'.length_le hxs⟩, ⟨h.not_due, h.lawful⟩,
    h.pool, h.items, h.nodes, h.owners, h.known, fun i hi => linked _ (h.linked i hi), h.fields⟩
  rw [left_tick]
  exact stored'

theorem step_tracks (behave : List Event → List Request) (w : World) (action : Action)
    (h : Tracks self others Quiet w) :
    Outcome Stop.ByCaller (Tracks self others Quiet) (step self behave w action) := by
  cases action with
  | user request => exact userStep_tracks quiet_shrinks w request h
  | tick => exact cotwTick_tracks behave w h

theorem start_tracks (interval currtime : Nat) (currtick : UInt32) (mem : Memory) :
    Tracks self mem.blocks Quiet (start interval currtime currtick mem) := by
  obtain ⟨shape, stored, vacant, quiet⟩ :=
    cotwInit_stored interval currtime currtick.toNat currtick.toNat_lt
  refine ⟨⟨shape, ?_, vacant, quiet⟩, trivial,
    ⟨[], [], Pool.init 4096 sizeofTitem (by decide) mem⟩,
    List.nodup_nil, rfl, ?_, ?_, ?_, ?_⟩
  · exact stored
  · intro n node hn
    cases hn
  all_goals
    intro i hi
    cases hi

end Machine

/-- Every timer has its turns in exactly its ticks until it is deleted, for every
initial tick count, every run, and everything callbacks may do. -/
theorem timers_honoured (self : UInt64) (interval currtime : Nat) (currtick : UInt32)
    (mem : Memory) (behave : List Event → List Request) (actions : List Action) :
    Outcome Stop.ByCaller (fun w => Honoured w.2.2)
      (run (step self behave) (start interval currtime currtick mem) actions) := by
  have started : Tracks self mem.blocks Quiet (start interval currtime currtick mem) :=
    start_tracks interval currtime currtick mem
  have outcome := outcome_run _ _ _ (step_tracks behave) actions _ started
  exact outcome.mono (fun w h => h.lawful.honoured h.not_due)

end Colinlib.Guarantees.TimerContract
