import Colinlib.Source.WheelSlots
import Colinlib.Theory.Runs
import Colinlib.Theory.Histories

/-!
# Timers expire in exactly the tick they were added for

The wheel is run from any value of `currtick` by initialising, adding and
deleting nodes and by ticks, whose callbacks make further such calls. The
history of a run says what was called and what expired; `countdown` reads from
it how many ticks a pending node has left. The run stops only where the caller
leaves the contract, or where a node that was never linked is deleted.
-/
namespace Colinlib.Guarantees.TimerExactness
open Colinlib.Theory Colinlib.Theory.CMemory Colinlib.Theory.Links
open Colinlib.Theory.Histories (ticks ticks_tick ticks_other)
open Colinlib.Source.TimingWheel Colinlib.Source.Clink

inductive UserOp where
  | init (n : Nat) (cb : Option Nat) (ud : Nat)
  | add (n : Nat) (ticks : UInt32)
  | del (n : Nat)
  deriving DecidableEq

/-- `expire n (some cb) ud` is the invocation `cb(ud)` for node `n`; with a null
callback nothing is invoked, but the node has left the wheel. -/
inductive Event where
  | init (n : Nat) (cb : Option Nat) (ud : Nat)
  | add (n : Nat) (ticks : UInt32)
  | del (n : Nat)
  | tick
  | expire (n : Nat) (cb : Option Nat) (ud : Nat)
  deriving DecidableEq

/-- How many ticks the ticks argument of `cotw_add` stands for. -/
def due (ticks : UInt32) : Nat := max ticks.toNat 1

/-- The ticks node `n` has left after a history (newest event first); `none` when
it is not pending. -/
def countdown : List Event → Nat → Option Nat
  | [], _ => none
  | .tick :: h, n => (countdown h n).map (· - 1)
  | .add m t :: h, n => if n = m then some (due t) else countdown h n
  | .init m _ _ :: h, n => if n = m then none else countdown h n
  | .del m :: h, n => if n = m then none else countdown h n
  | .expire m _ _ :: h, n => if n = m then none else countdown h n

/-- The callback and user data of a node's latest `cotw_node_init`. -/
def registered : List Event → Nat → Option (Option Nat × Nat)
  | [], _ => none
  | .init m cb ud :: h, n => if n = m then some (cb, ud) else registered h n
  | _ :: h, n => registered h n

abbrev World := Cotw × List Event

/-- How a run stops: at a call outside the contract, at a fault of a call, or at a
fault of the wheel's own tick. -/
inductive Stop where
  | contract (op : UserOp)
  | fault (op : UserOp) (f : Fault)
  | tick (f : Fault)
  deriving DecidableEq

/-- Initialising or adding a node that is pending is outside the contract, and so
is any use of a node that was never initialised. -/
def userStep (w : World) (op : UserOp) : Except Stop World :=
  match op with
  | .init n cb ud =>
    if n ≤ w.1.nodes.length ∧ countdown w.2 n = none then
      .ok (cotwNodeInit w.1 n cb ud, .init n cb ud :: w.2)
    else .error (.contract op)
  | .add n ticks =>
    if n < w.1.nodes.length ∧ countdown w.2 n = none then
      match cotwAdd w.1 n ticks.toNat with
      | .ok tw => .ok (tw, .add n ticks :: w.2)
      | .error f => .error (.fault op f)
    else .error (.contract op)
  | .del n =>
    if n < w.1.nodes.length then
      match cotwDel w.1 n with
      | .ok (_, tw) => .ok (tw, .del n :: w.2)
      | .error f => .error (.fault op f)
    else .error (.contract op)

/-- What a call that returns has met and done. -/
theorem userStep_cases {w w' : World} {op : UserOp} (h : userStep w op = .ok w') :
    (∃ n cb ud, op = .init n cb ud ∧ n ≤ w.1.nodes.length ∧ countdown w.2 n = none ∧
      w' = (cotwNodeInit w.1 n cb ud, .init n cb ud :: w.2)) ∨
    (∃ n t tw, op = .add n t ∧ n < w.1.nodes.length ∧ countdown w.2 n = none ∧
      cotwAdd w.1 n t.toNat = .ok tw ∧ w' = (tw, .add n t :: w.2)) ∨
    ∃ n r tw, op = .del n ∧ n < w.1.nodes.length ∧ cotwDel w.1 n = .ok (r, tw) ∧
      w' = (tw, .del n :: w.2) := by
  cases op with
  | init n cb ud =>
      simp only [userStep] at h
      split at h
      · next allowed => exact .inl ⟨n, cb, ud, rfl, allowed.1, allowed.2, (Except.ok.inj h).symm⟩
      · cases h
  | add n t =>
      simp only [userStep] at h
      split at h
      · next allowed =>
        split at h
        · next tw ran =>
          exact .inr (.inl ⟨n, t, tw, rfl, allowed.1, allowed.2, ran, (Except.ok.inj h).symm⟩)
        · cases h
      · cases h
  | del n =>
      simp only [userStep] at h
      split at h
      · next known =>
        split at h
        · next r tw ran => exact .inr (.inr ⟨n, r, tw, rfl, known, ran, (Except.ok.inj h).symm⟩)
        · cases h
      · cases h

def userRun : World → List UserOp → Except Stop World := Runs.run userStep

/-- A callback makes the calls `behave` gives for the history it is invoked in. -/
def environment (behave : List Event → List UserOp) : Env (List Event) Stop where
  raise := .tick
  call n cb ud w :=
    let hist := .expire n (some cb) ud :: w.2
    userRun (w.1, hist) (behave hist)
  quiet n ud hist := .expire n none ud :: hist

inductive Action where
  | user (op : UserOp)
  | tick
  deriving DecidableEq

def step (behave : List Event → List UserOp) (w : World) : Action → Except Stop World
  | .user op => userStep w op
  | .tick => _cotwTick (environment behave) w.1 (.tick :: w.2)

/-- `cotw_init`, with `currtick` then set to any value. -/
def start (interval currtime : Nat) (currtick : UInt32) : World :=
  ({ cotwInit interval currtime with currtick := currtick.toNat }, [])

/-- The caller's doing: a call outside the contract, or `cotw_del` of a node whose
links are still null. -/
def Stop.ByCaller : Stop → Prop
  | .contract _ => True
  | .fault (.del _) .nullPointer => True
  | _ => False

def Event.About (n : Nat) : Event → Prop
  | .init m _ _ | .add m _ | .del m | .expire m _ _ => m = n
  | .tick => False

/-- What became of a node in the events after its `cotw_add` for `d` ticks: it is
still pending, it expired in exactly the `d`-th tick, or it was deleted first. -/
def Fate (n d : Nat) (post : List Event) : Prop :=
  ((∀ e ∈ post, ¬ e.About n) ∧ ticks .tick post < d) ∨
  (∃ later cb ud mid, post = later ++ .expire n cb ud :: mid ∧ (∀ e ∈ mid, ¬ e.About n) ∧
    ticks .tick mid = d) ∨
  (∃ later mid, post = later ++ .del n :: mid ∧ (∀ e ∈ mid, ¬ e.About n) ∧ ticks .tick mid ≤ d)

/-- Every add meets one of the three fates; a node expires only while it is
pending, once for each add, and with its own callback and user data. -/
structure Exact (hist : List Event) : Prop where
  fate : ∀ post n t pre, hist = post ++ .add n t :: pre → Fate n (due t) post
  owner : ∀ post n cb ud pre, hist = post ++ .expire n cb ud :: pre →
    ∃ mid t rest, pre = mid ++ .add n t :: rest ∧ (∀ e ∈ mid, ¬ e.About n) ∧ ticks .tick mid = due t
  callback : ∀ post n cb ud pre, hist = post ++ .expire n cb ud :: pre →
    registered pre n = some (cb, ud)

section Histories

/-- The events a history allows next. -/
def Allowed (h : List Event) : Event → Prop
  | .init n _ _ => countdown h n = none
  | .add n _ => countdown h n = none
  | .del _ => True
  | .tick => ∀ n, countdown h n ≠ some 0
  | .expire n cb ud => countdown h n = some 0 ∧ registered h n = some (cb, ud)

abbrev Lawful : List Event → Prop := Histories.Lawful Allowed

/-- A pending node's countdown goes back to its add. -/
theorem countdown_origin {h : List Event} {n r : Nat} (lawful : Lawful h)
    (hr : countdown h n = some r) :
    ∃ mid t rest, h = mid ++ .add n t :: rest ∧ (∀ e ∈ mid, ¬ e.About n) ∧
      ticks .tick mid + r = due t := by
  induction h generalizing r with
  | nil => cases hr
  | cons e h ih =>
      have other : ∀ e' : Event, e' ≠ .tick → ¬ e'.About n → countdown h n = some r →
          ∃ mid t rest, e' :: h = mid ++ .add n t :: rest ∧ (∀ e ∈ mid, ¬ e.About n) ∧
            ticks .tick mid + r = due t := by
        intro e' hne hab hr
        obtain ⟨mid, t, rest, rfl, hmid, hticks⟩ := ih lawful.2 hr
        refine ⟨e' :: mid, t, rest, rfl, ?_, by rw [ticks_other hne, hticks]⟩
        exact List.forall_mem_cons.mpr ⟨hab, hmid⟩
      cases e with
      | tick =>
          cases hc : countdown h n with
          | none => simp [countdown, hc] at hr
          | some r' =>
              have hpos : r' ≠ 0 := fun h0 => lawful.1 n (by rw [hc, h0])
              have hr' : r' - 1 = r := by simpa [countdown, hc] using hr
              obtain ⟨mid, t, rest, rfl, hmid, hticks⟩ := ih lawful.2 hc
              refine ⟨.tick :: mid, t, rest, rfl, ?_, ?_⟩
              · exact List.forall_mem_cons.mpr ⟨fun h => h, hmid⟩
              · rw [ticks_tick]
                omega
      | add m t =>
          by_cases hm : n = m
          · subst hm
            refine ⟨[], t, h, rfl, by simp, ?_⟩
            simpa [countdown, ticks, eq_comm] using hr
          · exact other _ (by simp) (Ne.symm hm) (by simpa [countdown, hm] using hr)
      | init m cb ud =>
          by_cases hm : n = m
          · simp [countdown, hm] at hr
          · exact other _ (by simp) (Ne.symm hm) (by simpa [countdown, hm] using hr)
      | del m =>
          by_cases hm : n = m
          · simp [countdown, hm] at hr
          · exact other _ (by simp) (Ne.symm hm) (by simpa [countdown, hm] using hr)
      | expire m cb ud =>
          by_cases hm : n = m
          · simp [countdown, hm] at hr
          · exact other _ (by simp) (Ne.symm hm) (by simpa [countdown, hm] using hr)

/-- After its add a node is pending, and counts down, until it expires in its own
tick or is deleted. -/
theorem fate_or_pending {post pre : List Event} {n : Nat} {t : UInt32}
    (lawful : Lawful (post ++ .add n t :: pre)) :
    ((∀ e ∈ post, ¬ e.About n) ∧ ∃ r, countdown (post ++ .add n t :: pre) n = some r ∧
      ticks .tick post + r = due t) ∨
    (∃ later cb ud mid, post = later ++ .expire n cb ud :: mid ∧ (∀ e ∈ mid, ¬ e.About n) ∧
      ticks .tick mid = due t) ∨
    (∃ later mid, post = later ++ .del n :: mid ∧ (∀ e ∈ mid, ¬ e.About n) ∧
      ticks .tick mid ≤ due t) := by
  induction post with
  | nil => exact .inl ⟨by simp, due t, by simp [countdown], by simp [ticks]⟩
  | cons e post ih =>
      rcases ih lawful.2 with ⟨huntouched, r, hr, hticks⟩ | ⟨later, cb, ud, mid, rfl, rest⟩ |
        ⟨later, mid, rfl, rest⟩
      · have hallowed := lawful.1
        have other : e ≠ .tick → ¬ e.About n →
            countdown (e :: (post ++ .add n t :: pre)) n = countdown (post ++ .add n t :: pre) n →
            (∀ e' ∈ e :: post, ¬ e'.About n) ∧ ∃ r,
              countdown (e :: (post ++ .add n t :: pre)) n = some r ∧
              ticks .tick (e :: post) + r = due t := by
          intro hne hab hsame
          refine ⟨List.forall_mem_cons.mpr ⟨hab, huntouched⟩, r, hsame.trans hr, ?_⟩
          rw [ticks_other hne, hticks]
        cases e with
        | tick =>
            refine .inl ⟨List.forall_mem_cons.mpr ⟨fun h => h, huntouched⟩, r - 1, ?_, ?_⟩
            · simp [countdown, hr]
            · have hpos : r ≠ 0 := fun h0 => hallowed n (by rw [← h0]; exact hr)
              rw [ticks_tick]
              omega
        | add m t' =>
            by_cases hm : n = m
            · subst hm
              have : countdown (post ++ .add n t :: pre) n = none := hallowed
              rw [hr] at this
              cases this
            · exact .inl (other (by simp) (Ne.symm hm) (by simp [countdown, hm]))
        | init m cb ud =>
            by_cases hm : n = m
            · subst hm
              have : countdown (post ++ .add n t :: pre) n = none := hallowed
              rw [hr] at this
              cases this
            · exact .inl (other (by simp) (Ne.symm hm) (by simp [countdown, hm]))
        | del m =>
            by_cases hm : n = m
            · subst hm
              exact .inr (.inr ⟨[], post, rfl, huntouched, by omega⟩)
            · exact .inl (other (by simp) (Ne.symm hm) (by simp [countdown, hm]))
        | expire m cb ud =>
            by_cases hm : n = m
            · subst hm
              have h0 : countdown (post ++ .add n t :: pre) n = some 0 := hallowed.1
              rw [hr] at h0
              obtain rfl : r = 0 := Option.some.inj h0
              exact .inr (.inl ⟨[], cb, ud, post, rfl, huntouched, by omega⟩)
            · exact .inl (other (by simp) (Ne.symm hm) (by simp [countdown, hm]))
      · exact .inr (.inl ⟨e :: later, cb, ud, mid, rfl, rest⟩)
      · exact .inr (.inr ⟨e :: later, mid, rfl, rest⟩)

/-- A history that was lawful throughout, with no node overdue, is exact. -/
theorem Lawful.exact {hist : List Event} (lawful : Lawful hist)
    (rest : ∀ n, countdown hist n ≠ some 0) : Exact hist where
  fate := by
    intro post n t pre hsplit
    subst hsplit
    rcases fate_or_pending lawful with ⟨huntouched, r, hr, hticks⟩ | hfate | hfate
    · have hpos : r ≠ 0 := fun h0 => rest n (by rw [← h0]; exact hr)
      exact .inl ⟨huntouched, by omega⟩
    · exact .inr (.inl hfate)
    · exact .inr (.inr hfate)
  owner := by
    intro post n cb ud pre hsplit
    subst hsplit
    have here := Histories.Lawful.of_append lawful
    obtain ⟨mid, t, rest, hpre, hmid, hticks⟩ := countdown_origin here.2 here.1.1
    exact ⟨mid, t, rest, hpre, hmid, hticks⟩
  callback := by
    intro post n cb ud pre hsplit
    subst hsplit
    exact (Histories.Lawful.of_append lawful).1.2

end Histories

section Machine

/-- The wheel's memory agrees with the history. `D` says what the list of the
tick in progress may be. -/
structure Tracks (D : Option (List Ptr) → Prop) (tw : Cotw) (hist : List Event) : Prop where
  stored : ∃ shape, Stored tw shape (countdown hist) Settled ∧ Vacant shape .cascadeHead ∧
    D (shape .tickHead)
  lawful : Lawful hist
  fields : ∀ n node, tw.nodes[n]? = some node →
    registered hist n = some (node.callback, node.userdata)

/-- Between ticks. -/
def Quiet (l : Option (List Ptr)) : Prop := ∀ xs, l = some xs → xs = []

/-- In a drain loop with `k` steps left. -/
def Room (k : Nat) (l : Option (List Ptr)) : Prop := ∃ xs, l = some xs ∧ xs.length ≤ k

def Shrinks (D : Option (List Ptr) → Prop) : Prop := ∀ xs x, D (some xs) → D (some (xs.erase x))

theorem quiet_shrinks : Shrinks Quiet := by
  intro xs x h ys hys
  rw [h xs rfl] at hys
  exact (Option.some.inj hys).symm

theorem room_shrinks (k : Nat) : Shrinks (Room k) := by
  rintro xs x ⟨_, ⟨⟩, hlen⟩
  exact ⟨_, rfl, Nat.le_trans List.length_erase_le hlen⟩

/-- Either the caller stopped the run, or its result satisfies `Q`. -/
def OrCaller (x : Except Stop World) (Q : World → Prop) : Prop :=
  match x with
  | .ok w => Q w
  | .error stop => stop.ByCaller

theorem OrCaller.run {α : Type} {f : World → α → Except Stop World} {Q : World → Prop}
    (h : ∀ w a, Q w → OrCaller (f w a) Q) (actions : List α) (w : World) (hw : Q w) :
    OrCaller (Runs.run f w actions) Q := by
  have outcome := Runs.outcome_run f Stop.ByCaller Q (fun w a hw => by
    have hstep := h w a hw
    revert hstep
    cases f w a <;> exact id) actions w hw
  revert outcome
  cases Runs.run f w actions <;> exact id

variable {D : Option (List Ptr) → Prop}

theorem init_tracks (hist : List Event) {tw : Cotw} (h : Tracks D tw hist) {n : Nat}
    (cb : Option Nat) (ud : Nat) (hn : n ≤ tw.nodes.length) (hl : countdown hist n = none) :
    Tracks D (cotwNodeInit tw n cb ud) (.init n cb ud :: hist) := by
  obtain ⟨shape, hstored, hvac, hD⟩ := h.stored
  obtain ⟨shape', hstored', hother⟩ := hstored.nodeInit cb ud settled_node hl hn
  have hleft : countdown (.init n cb ud :: hist) = countdown hist := by
    funext m
    by_cases hm : m = n
    · subst hm
      simp [countdown, hl]
    · simp [countdown, hm]
  refine ⟨⟨shape', ?_, ?_, ?_⟩, ⟨hl, h.lawful⟩, ?_⟩
  · rw [hleft]
    exact hstored'
  · intro ys hys
    rw [hother _ (by simp)] at hys
    exact hvac ys hys
  · rw [hother _ (by simp)]
    exact hD
  · intro m node hnode
    by_cases hm : m = n
    · subst hm
      simp only [cotwNodeInit] at hnode
      have hnew : node.callback = cb ∧ node.userdata = ud := by
        split at hnode
        · next hlt =>
          rw [List.getElem?_set_self hlt] at hnode
          obtain rfl := Option.some.inj hnode
          exact ⟨rfl, rfl⟩
        · next hge =>
          obtain rfl : m = tw.nodes.length := by omega
          simp only [List.getElem?_concat_length, Option.some.injEq] at hnode
          subst hnode
          exact ⟨rfl, rfl⟩
      simp [registered, hnew]
    · have hold : tw.nodes[m]? = some node := by
        simp only [cotwNodeInit] at hnode
        split at hnode
        · rwa [List.getElem?_set_ne (Ne.symm hm)] at hnode
        · have hlt : m < tw.nodes.length := by
            have := (List.getElem?_eq_some_iff.mp hnode).1
            simp only [List.length_append, List.length_singleton] at this
            omega
          rwa [List.getElem?_append_left hlt] at hnode
      simpa [registered, hm] using h.fields m node hold

theorem add_tracks (hist : List Event) {tw : Cotw} (h : Tracks D tw hist) {n : Nat}
    (t : UInt32) (hn : n < tw.nodes.length) (hl : countdown hist n = none) :
    ∃ tw', cotwAdd tw n t.toNat = .ok tw' ∧ Tracks D tw' (.add n t :: hist) := by
  obtain ⟨shape, hstored, hvac, hD⟩ := h.stored
  obtain ⟨node, hnode⟩ : ∃ node, tw.nodes[n]? = some node := ⟨_, List.getElem?_eq_getElem hn⟩
  have hdue : (if 0 < t.toNat then t.toNat else 1) = due t := by
    unfold due
    split <;> omega
  have hsmall : due t < 2 ^ 32 := by
    have := t.toNat_lt
    unfold due
    omega
  obtain ⟨tw', shape', hadd, hnodes, hstored', hother⟩ :=
    hstored.add hnode hl hsmall hdue.symm
  refine ⟨tw', hadd, ⟨shape', ?_, ?_, ?_⟩, ⟨hl, h.lawful⟩, ?_⟩
  · have hleft : countdown (.add n t :: hist) =
        Function.update (countdown hist) n (some (due t)) := by
      funext m
      simp [countdown, Function.update_apply]
    rw [hleft]
    exact hstored'
  · intro ys hys
    rw [hother .cascadeHead (fun h => h) (by simp)] at hys
    exact hvac ys hys
  · rw [hother .tickHead (fun h => h) (by simp)]
    exact hD
  · intro m node' hnode'
    simp only [hnodes] at hnode'
    by_cases hm : m = n
    · subst hm
      rw [List.getElem?_set_self hn] at hnode'
      obtain rfl := Option.some.inj hnode'
      simpa [registered] using h.fields m node hnode
    · rw [List.getElem?_set_ne (Ne.symm hm)] at hnode'
      simpa [registered] using h.fields m node' hnode'

theorem del_tracks (shrinks : Shrinks D) (hist : List Event) {tw : Cotw}
    (h : Tracks D tw hist) {n : Nat} (hn : n < tw.nodes.length) :
    cotwDel tw n = .error .nullPointer ∨
    ∃ res tw', cotwDel tw n = .ok (res, tw') ∧ Tracks D tw' (.del n :: hist) := by
  obtain ⟨shape, hstored, hvac, hD⟩ := h.stored
  cases hl : countdown hist n with
  | some r =>
      obtain ⟨tw', shape', hrun, hnodes, hstored', hsome, hnone⟩ := hstored.del_pending hl
      have hleft : countdown (.del n :: hist) = Function.update (countdown hist) n none := by
        funext m
        simp [countdown, Function.update_apply]
      refine .inr ⟨1, tw', hrun, ⟨shape', ?_, ?_, ?_⟩, ⟨trivial, h.lawful⟩, ?_⟩
      · rw [hleft]
        exact hstored'
      · intro ys hys
        cases hc : shape .cascadeHead with
        | none =>
            rw [hnone _ (by simp) hc] at hys
            cases hys
        | some zs =>
            rw [hsome _ zs (by simp) hc, hvac zs hc] at hys
            exact (Option.some.inj hys).symm
      · cases ht : shape .tickHead with
        | none =>
            rw [hnone _ (by simp) ht]
            rwa [ht] at hD
        | some zs =>
            rw [hsome _ zs (by simp) ht]
            rw [ht] at hD
            exact shrinks zs _ hD
      · rw [hnodes]
        exact h.fields
  | none =>
      have hleft : countdown (.del n :: hist) = countdown hist := by
        funext m
        by_cases hm : m = n
        · subst hm
          simp [countdown, hl]
        · simp [countdown, hm]
      rcases hstored.del_idle hn hl with hrun | hrun
      · refine .inr ⟨0, tw, hrun, ⟨shape, ?_, hvac, hD⟩, ⟨trivial, h.lawful⟩, h.fields⟩
        rw [hleft]
        exact hstored
      · exact .inl hrun

theorem userStep_tracks (shrinks : Shrinks D) (w : World) (op : UserOp)
    (h : Tracks D w.1 w.2) : OrCaller (userStep w op) (fun w' => Tracks D w'.1 w'.2) := by
  obtain ⟨tw, hist⟩ := w
  cases op with
  | init n cb ud =>
      simp only [userStep]
      split
      · next hc => exact init_tracks hist h cb ud hc.1 hc.2
      · trivial
  | add n t =>
      simp only [userStep]
      split
      · next hc =>
        obtain ⟨tw', hadd, htracks⟩ := add_tracks hist h t hc.1 hc.2
        rw [hadd]
        exact htracks
      · trivial
  | del n =>
      simp only [userStep]
      split
      · next hc =>
        rcases del_tracks shrinks hist h hc with hfault | ⟨res, tw', hdel, htracks⟩
        · rw [hfault]
          trivial
        · rw [hdel]
          exact htracks
      · trivial

theorem OrCaller.bind {x : Except Stop World} {f : World → Except Stop World}
    {Q R : World → Prop} (h : OrCaller x Q) (next : ∀ w, Q w → OrCaller (f w) R) :
    OrCaller (x >>= f) R := by
  cases x with
  | error stop => exact h
  | ok w => exact next w h

/-- The drain loop empties the tick's list: every node on it is due, and what its
callback does to the wheel can only shorten the list. -/
theorem drainLoop_tracks (behave : List Event → List UserOp) (fuel : Nat) (tw : Cotw)
    (hist : List Event) (h : Tracks (Room fuel) tw hist) :
    OrCaller (drainLoop (environment behave) fuel (tw, hist))
      (fun w => Tracks Quiet w.1 w.2) := by
  have finish : ∀ k (tw : Cotw) (hist : List Event), Tracks (Room k) tw hist →
      coclinkIsEmpty tw.links .tickHead = true → Tracks Quiet tw hist := by
    intro k tw hist h hempty
    obtain ⟨shape, hstored, hvac, xs, hxs, _⟩ := h.stored
    refine ⟨⟨shape, hstored, hvac, ?_⟩, h.lawful, h.fields⟩
    intro ys hys
    rw [hxs] at hys
    obtain rfl := Option.some.inj hys
    exact (coclinkIsEmpty_iff hstored.rings hxs).mp hempty
  induction fuel generalizing tw hist with
  | zero =>
      have hempty : coclinkIsEmpty tw.links .tickHead = true := by
        obtain ⟨shape, hstored, _, xs, hxs, hlen⟩ := h.stored
        exact (coclinkIsEmpty_iff hstored.rings hxs).mpr
          (List.length_eq_zero_iff.mp (Nat.le_zero.mp hlen))
      rw [drainLoop, if_pos hempty]
      exact finish 0 tw hist h hempty
  | succ fuel ih =>
      by_cases hempty : coclinkIsEmpty tw.links .tickHead = true
      · rw [drainLoop, if_pos hempty]
        exact finish _ tw hist h hempty
      · obtain ⟨shape, hstored, hvac, xs, hxs, hlen⟩ := h.stored
        cases xs with
        | nil => exact absurd ((coclinkIsEmpty_iff hstored.rings hxs).mpr rfl) hempty
        | cons x rest =>
            obtain ⟨n, node, r, links', shape', hpop, hnode, hleft, _, _, hfit, hstored', hrest,
              hvacant⟩ := hstored.popFront (by simp) hxs
            obtain rfl : r = 0 := hfit.1
            have popped : ∀ cb, node.callback = cb →
                Tracks (Room fuel) { tw with links := links' }
                  (.expire n cb node.userdata :: hist) := by
              intro cb hcb
              have hfields := h.fields n node hnode
              rw [hcb] at hfields
              have hleft' : countdown (.expire n cb node.userdata :: hist) =
                  Function.update (countdown hist) n none := by
                funext m
                simp [countdown, Function.update_apply]
              refine ⟨⟨shape', ?_, hvacant _ (by simp) hvac, rest, hrest, by simpa using hlen⟩,
                ⟨⟨hleft, hfields⟩, h.lawful⟩, fun m node' hm => h.fields m node' hm⟩
              rw [hleft']
              exact hstored'
            have hget : getNode { tw with links := links' } n = .ok node := by
              rw [getNode, hnode]
            rw [drainLoop, if_neg hempty, hpop]
            change OrCaller ((environment behave).lift (getNode _ n) >>= _) _
            rw [hget]
            change OrCaller (pure node >>= _) _
            rw [pure_bind]
            cases hcb : node.callback with
            | none => exact ih _ _ (popped none hcb)
            | some cb =>
                refine OrCaller.bind (OrCaller.run (userStep_tracks (room_shrinks fuel)) _ _
                  (popped (some cb) hcb)) ?_
                intro w hw
                exact ih w.1 w.2 hw

/-- Between ticks no node is due. -/
theorem Tracks.not_due {tw : Cotw} {hist : List Event} (h : Tracks Quiet tw hist) (n : Nat) :
    countdown hist n ≠ some 0 := by
  intro hdue
  obtain ⟨shape, hstored, _, hquiet⟩ := h.stored
  obtain ⟨p, xs, hp, hmem⟩ := hstored.linked n 0 hdue
  obtain ⟨_, _, _, _, _, hpos⟩ := hstored.member_node hp hmem hdue
  have hpt : p ≠ .tickHead := by
    rintro rfl
    rw [hquiet xs hp] at hmem
    cases hmem
  exact absurd (hpos hpt) (Nat.lt_irrefl 0)

theorem cotwTick_tracks (behave : List Event → List UserOp) (tw : Cotw) (hist : List Event)
    (h : Tracks Quiet tw hist) :
    OrCaller (_cotwTick (environment behave) tw (.tick :: hist))
      (fun w => Tracks Quiet w.1 w.2) := by
  obtain ⟨shape, hstored, hvac, hquiet⟩ := h.stored
  obtain ⟨links', shape', xs, hadvance, hstored', hxs, hvac'⟩ := advance_spec hstored hvac hquiet
  rw [_cotwTick, hadvance]
  refine drainLoop_tracks behave _ _ _ ⟨⟨shape', hstored', hvac', xs, hxs, ?_⟩,
    ⟨h.not_due, h.lawful⟩, fun n node hn => h.fields n node hn⟩
  exact hstored'.length_le hxs

theorem step_tracks (behave : List Event → List UserOp) (w : World) (action : Action)
    (h : Tracks Quiet w.1 w.2) :
    OrCaller (step behave w action) (fun w' => Tracks Quiet w'.1 w'.2) := by
  cases action with
  | user op => exact userStep_tracks quiet_shrinks w op h
  | tick => exact cotwTick_tracks behave w.1 w.2 h

theorem start_tracks (interval currtime : Nat) (currtick : UInt32) :
    Tracks Quiet (start interval currtime currtick).1 (start interval currtime currtick).2 := by
  obtain ⟨shape, hstored, hvac, hquiet⟩ :=
    cotwInit_stored interval currtime currtick.toNat currtick.toNat_lt
  refine ⟨⟨shape, hstored, hvac, hquiet⟩, trivial, ?_⟩
  intro n node hn
  cases hn

end Machine

end Colinlib.Guarantees.TimerExactness
