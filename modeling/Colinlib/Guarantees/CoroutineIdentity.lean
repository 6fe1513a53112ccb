import Colinlib.Theory.Probing
import Colinlib.Guarantees.SchedulerDiscipline

/-!
# What an id denotes

`cort_new` looks for a slot from `nco` on and trusts `nco` to be the number of live
coroutines. It is, so a slot is found unless all are live, and the slot that is taken is
empty or dead. A census beside the scheduler records each coroutine from its creation to
the return of its function: at every time the live slots and the census agree, and what
an id denotes changes only after its coroutine is dead.
-/
namespace Colinlib.Guarantees.CoroutineIdentity
open Colinlib.Theory Colinlib.Theory.CMemory Colinlib.Theory.Probing Colinlib.Source.Routine
open Colinlib.Guarantees.SchedulerDiscipline

/-! ## One creation -/

/-- Every slot holds a live coroutine. -/
def Full (S : Cosched) : Prop := ∀ id < S.cap, live (S.cort id) = true

/-- The slot that is taken was empty or dead and all others are as they were; a full array is
doubled, and the rest of its new half is empty. -/
structure TakesVacant (S : Cosched) (func : Option Nat) (ud cid : Nat) (S' : Cosched) : Prop where
  was : live (S.cort cid) = false
  inside : cid < S'.cap
  now : ∃ c, S'.cort cid = some c ∧ c.status = .suspend ∧ c.func = func ∧ c.ud = ud
  others : ∀ id, id ≠ cid → S'.cort id = S.cort id
  running : S'.running = S.running
  stays : ¬ Full S → S'.cap = S.cap
  doubles : Full S → S'.cap = 2 * S.cap ∧
    ∀ id, S.cap ≤ id → id < S'.cap → id ≠ cid → S'.co[id]? = some none

theorem vacant_iff (S : Cosched) (id : Nat) : vacant S id = true ↔ live (S.cort id) = false := by
  unfold vacant live
  cases S.cort id with
  | none => exact ⟨fun _ => rfl, fun _ => rfl⟩
  | some c => simp

theorem countP_eq_length_iff (S : Cosched) : liveCount S = S.cap ↔ Full S := by
  unfold liveCount Full Cosched.cap
  rw [List.countP_eq_length]
  constructor
  · intro all id inside
    have held : S.cort id = S.co[id] := by simp [Cosched.cort, inside]
    rw [held]
    exact all _ (List.getElem_mem inside)
  · intro all c mem
    obtain ⟨id, inside, rfl⟩ := List.mem_iff_getElem.mp mem
    have held : S.cort id = S.co[id] := by simp [Cosched.cort, inside]
    exact held ▸ all id inside

/-- The loop meets every slot, so it finds one where one is left. -/
theorem findSlot_some {S : Cosched} (room : ¬ Full S) :
    ∃ cid, findSlot S = some cid ∧ cid < S.cap ∧ vacant S cid = true := by
  unfold Full at room
  push Not at room
  obtain ⟨free, inside, dead⟩ := room
  obtain ⟨k, round, met⟩ := exists_probe S.nco inside
  cases found : findSlot S with
  | none =>
      have none_vacant := List.find?_eq_none.mp found free (List.mem_map.mpr
        ⟨k, List.mem_range.mpr round, by rw [Nat.add_comm]; exact met⟩)
      exact absurd ((vacant_iff S free).mpr (Bool.eq_false_of_not_eq_true dead)) none_vacant
  | some cid =>
      refine ⟨cid, rfl, ?_, List.find?_some found⟩
      obtain ⟨i, -, rfl⟩ := List.mem_map.mp (List.mem_of_find?_eq_some found)
      exact Nat.mod_lt _ (by omega)

/-- The array with as many empty slots behind it. -/
def doubled (S : Cosched) : Cosched := { S with co := S.co ++ List.replicate S.cap none }

/-- Where `nco` counts the live coroutines, the array grows exactly when it is full. -/
theorem chooseSlot_counted {S : Cosched} (counted : S.nco = liveCount S) :
    (Full S ∧ chooseSlot S = (some S.cap, doubled S)) ∨
    (¬ Full S ∧ ∃ cid, chooseSlot S = (some cid, S) ∧ cid < S.cap ∧ vacant S cid = true) := by
  by_cases full : Full S
  · refine .inl ⟨full, ?_⟩
    have all := (countP_eq_length_iff S).mpr full
    rw [chooseSlot, if_pos (by omega)]
    rfl
  · refine .inr ⟨full, ?_⟩
    have some_left : liveCount S ≠ S.cap := fun all => full ((countP_eq_length_iff S).mp all)
    have most : liveCount S ≤ S.cap := List.countP_le_length
    obtain ⟨cid, found, inside, free⟩ := findSlot_some full
    exact ⟨cid, by rw [chooseSlot, if_neg (by omega), found], inside, free⟩

theorem doubled_getElem? (S : Cosched) {id : Nat} (new : S.cap ≤ id) (inside : id < 2 * S.cap) :
    (doubled S).co[id]? = some none := by
  have old : S.co.length ≤ id := new
  have rest : id - S.co.length < S.cap := by
    unfold Cosched.cap at *
    omega
  rw [doubled, List.getElem?_append_right old, List.getElem?_replicate, if_pos rest]

theorem cortNew_takesVacant {S : Cosched} (func : Option Nat) (ud : Nat) (some_slots : 0 < S.cap)
    (counted : S.nco = liveCount S) (current : ∃ c, S.cort S.running = some c) :
    ∃ cid S', cortNew S func ud = .ok (some cid, S') ∧ TakesVacant S func ud cid S' := by
  obtain ⟨cid, S₁, chosen⟩ : ∃ cid S₁, chooseSlot S = (some cid, S₁) := by
    obtain ⟨-, chosen⟩ | ⟨-, cid, chosen, -⟩ := chooseSlot_counted counted
    · exact ⟨_, _, chosen⟩
    · exact ⟨_, _, chosen⟩
  obtain ⟨inside, -, free, same, nco, running, -⟩ := chooseSlot_some some_slots chosen
  have taken : ∀ c : Cort, c.status = .suspend → c.func = func → c.ud = ud →
      TakesVacant S func ud cid ((S₁.setCort cid c).setNco (S₁.nco + 1)) := by
    intro c status is_func is_ud
    refine ⟨(vacant_iff S cid).mp free, by simpa using inside, ⟨c, ?_, status, is_func, is_ud⟩,
      fun id other => ?_, running, fun room => ?_, fun full => ?_⟩
    · rw [setNco_cort, setCort_cort inside, if_pos rfl]
    · rw [setNco_cort, setCort_cort inside, if_neg other, same]
    · obtain ⟨full, -⟩ | ⟨-, cid', chosen', -⟩ := chooseSlot_counted counted
      · exact absurd full room
      · rw [chosen] at chosen'
        cases chosen'
        rw [setNco_cap, setCort_cap]
    · obtain ⟨-, chosen'⟩ | ⟨room, -⟩ := chooseSlot_counted counted
      · rw [chosen] at chosen'
        cases chosen'
        have size : (doubled S).cap = 2 * S.cap := by
          simp only [doubled, Cosched.cap, List.length_append, List.length_replicate]
          omega
        refine ⟨by rw [setNco_cap, setCort_cap, size], fun id new below other => ?_⟩
        rw [setNco_cap, setCort_cap, size] at below
        have empty := doubled_getElem? S new below
        simpa [Cosched.setCort, Cosched.setNco, List.getElem?_set_ne (Ne.symm other)] using empty
      · exact absurd full room
  unfold cortNew
  rw [chosen]
  dsimp only
  cases func with
  | none => exact ⟨cid, _, rfl, taken _ rfl rfl rfl⟩
  | some f =>
      obtain ⟨cur, here⟩ := current
      generalize (S₁.cort cid).getD ⟨none, 0, 0, .unset, .dead⟩ = old at *
      have there : (S₁.setCort cid { old with func := some f, ud := ud, status := .suspend }).cort
          S₁.running ≠ none := by
        rw [setCort_cort inside, same, running, here]
        split <;> simp
      rw [if_neg there]
      exact ⟨cid, _, rfl, taken _ rfl rfl rfl⟩

/-! ## What the steps do to the occupants of the slots -/

/-- What the live coroutine of a slot runs, and on which data. -/
def occupant (S : Cosched) (id : Nat) : Option (Option Nat × Nat) :=
  (S.cort id).bind fun c => if c.status = .dead then none else some (c.func, c.ud)

theorem occupant_of {S : Cosched} {id : Nat} {c : Cort} (held : S.cort id = some c)
    (alive : c.status ≠ .dead) : occupant S id = some (c.func, c.ud) := by
  simp [occupant, held, alive]

theorem occupant_none_iff (S : Cosched) (id : Nat) :
    occupant S id = none ↔ live (S.cort id) = false := by
  unfold occupant live
  cases S.cort id with
  | none => simp
  | some c => simp

/-- The current coroutine and the one below it keep their slots when they change status. -/
theorem occupant_same {S S' : Cosched} {id : Nat}
    (held : S'.cort id = S.cort id ∨ ∃ c c', S.cort id = some c ∧ S'.cort id = some c' ∧
      c.status ≠ .dead ∧ c'.status ≠ .dead ∧ c'.func = c.func ∧ c'.ud = c.ud) :
    occupant S' id = occupant S id := by
  rcases held with same | ⟨c, c', before, after, alive, alive', func, ud⟩
  · rw [occupant, same, occupant]
  · rw [occupant_of before alive, occupant_of after alive', func, ud]

theorem resume_occupant {m m' : Machine} {below : List Nat} {id : Nat} {b : Bool}
    (h : Inv m below) (taken : cortResume m id = .ok (b, m')) (j : Nat) :
    occupant m'.sch j = occupant m.sch j := by
  obtain ⟨cur, here, runs⟩ := h.current
  by_cases inside : id < m.sch.cap
  · cases held : m.sch.cort id with
    | none =>
        simp only [cortResume, if_pos inside, held, Except.ok.injEq, Prod.mk.injEq] at taken
        rw [← taken.2]
    | some co =>
        by_cases waits : co.status = .suspend
        · obtain ⟨S', resumed, -, -, -, -, slots⟩ :=
            cortResume_effects held waits (h.resumable held waits).2 here runs
          rw [resumed] at taken
          cases taken
          refine occupant_same ?_
          rw [slots]
          by_cases first : j = m.sch.running
          · subst first
            exact .inr ⟨_, _, here, if_pos rfl, by simp [runs], by simp, rfl, rfl⟩
          · rw [if_neg first]
            by_cases second : j = id
            · subst second
              exact .inr ⟨_, _, held, if_pos rfl, by simp [waits], by simp, rfl, rfl⟩
            · exact .inl (if_neg second)
        · simp only [cortResume, if_pos inside, held, here, Except.ok.injEq, Prod.mk.injEq] at taken
          rw [← taken.2]
  · simp [cortResume, inside] at taken

theorem yield_occupant {m m' : Machine} {below : List Nat} {b : Bool} (h : Inv m below)
    (taken : cortYield m = .ok (b, m')) (j : Nat) : occupant m'.sch j = occupant m.sch j := by
  by_cases main : m.sch.running = mainCoId
  · simp only [cortYield, if_pos main, Except.ok.injEq, Prod.mk.injEq] at taken
    rw [← taken.2]
  · obtain ⟨next, rest, rfl⟩ := h.below_of_not_main main
    obtain ⟨co, here, runs⟩ := h.current
    obtain ⟨-, ⟨c, held, rfl⟩, -⟩ := h.linked
    rw [here] at held
    cases held
    obtain ⟨pc, resumer, waits, saved⟩ := h.waiting _ List.mem_cons_self
    obtain ⟨S', yielded, -, -, -, -, slots⟩ :=
      cortYield_effects main here runs resumer waits saved
    rw [yielded] at taken
    cases taken
    refine occupant_same ?_
    rw [slots]
    by_cases first : j = m.sch.running
    · subst first
      exact .inr ⟨_, _, here, if_pos rfl, by simp [runs], by simp, rfl, rfl⟩
    · rw [if_neg first]
      by_cases second : j = co.pco
      · subst second
        exact .inr ⟨_, _, resumer, if_pos rfl, by simp [waits], by simp, rfl, rfl⟩
      · exact .inl (if_neg second)

theorem ret_occupant {m m' : Machine} {below : List Nat} (h : Inv m below)
    (not_main : m.exec ≠ mainCoId) (taken : cofuncReturn m m.exec = .ok m') :
    occupant m'.sch m.exec = none ∧
      ∀ j, j ≠ m.exec → occupant m'.sch j = occupant m.sch j := by
  obtain ⟨next, rest, rfl⟩ := h.below_of_not_main (h.on_cpu ▸ not_main)
  obtain ⟨co, here, runs⟩ := h.current
  obtain ⟨-, ⟨c, held, rfl⟩, -⟩ := h.linked
  rw [here] at held
  cases held
  obtain ⟨pc, resumer, waits, saved⟩ := h.waiting _ List.mem_cons_self
  obtain ⟨S', returned, -, -, -, -, slots⟩ :=
    cofuncReturn_effects (by rw [h.on_cpu]; exact here) runs resumer waits saved
  rw [returned] at taken
  cases taken
  refine ⟨?_, fun j other => occupant_same ?_⟩
  · rw [occupant_none_iff, slots, if_pos rfl]
    rfl
  · rw [slots, if_neg other]
    by_cases second : j = co.pco
    · subst second
      exact .inr ⟨_, _, resumer, if_pos rfl, by simp [waits], by simp, rfl, rfl⟩
    · exact .inl (if_neg second)

/-! ## The census -/

/-- A coroutine from its creation to the return of its function: the number of its
creation, the id `cort_new` returned for it, and what it was created to run. -/
structure Life where
  serial : Nat
  id : Nat
  func : Option Nat
  ud : Nat
  deriving DecidableEq, Repr

/-- How many coroutines there have been, and those whose function has not returned.
No operation of the scheduler reads it. -/
structure Census where
  born : Nat
  alive : List Life
  deriving DecidableEq, Repr

/-- The main coroutine. -/
def openCensus : Census := ⟨1, [⟨0, mainCoId, none, 0⟩]⟩

/-- A creation records the id that was returned; a return ends the life of the coroutine
whose code ran. -/
def Census.after (census : Census) (m : Machine) : Op → Census
  | .new func ud =>
    match cortNew m.sch (some func) ud with
    | .ok (some cid, _) => ⟨census.born + 1, ⟨census.born, cid, some func, ud⟩ :: census.alive⟩
    | _ => census
  | .ret => { census with alive := census.alive.eraseP (·.id == m.exec) }
  | _ => census

/-- A step of the machine, with the census kept beside it. -/
def countedStep (s : Machine × Census) (op : Op) : Except Fault (Machine × Census) := do
  let m ← step s.1 op
  .ok (m, s.2.after s.1 op)

/-- The census accounts for the slots: no two lives share an id or a serial number, and the
live slots hold what the lives with their ids were created to run. -/
structure Accounts (S : Cosched) (census : Census) : Prop where
  ids : (census.alive.map Life.id).Nodup
  serials : (census.alive.map Life.serial).Nodup
  earlier : ∀ l ∈ census.alive, l.serial < census.born
  slots : ∀ id what, occupant S id = some what ↔
    ∃ l ∈ census.alive, l.id = id ∧ (l.func, l.ud) = what

theorem openState_accounts : Accounts openState.sch openCensus := by
  refine ⟨by decide, by decide, by decide, fun id what => ?_⟩
  by_cases main : id = mainCoId
  · subst main
    have held : occupant openState.sch mainCoId = some (none, 0) := rfl
    simp [held, openCensus]
  · have empty : occupant openState.sch id = none := by
      rw [occupant_none_iff, openState_cort main]
      rfl
    simp [empty, openCensus, Ne.symm main]

/-- A live slot is the slot of some life. -/
theorem Accounts.live_iff {S : Cosched} {census : Census} (h : Accounts S census) (id : Nat) :
    live (S.cort id) = true ↔ ∃ l ∈ census.alive, l.id = id := by
  have none_iff := occupant_none_iff S id
  constructor
  · intro alive
    obtain ⟨what, held⟩ := Option.ne_none_iff_exists'.mp
      (fun empty => by rw [none_iff.mp empty] at alive; cases alive)
    obtain ⟨l, mem, is, -⟩ := (h.slots id what).mp held
    exact ⟨l, mem, is⟩
  · rintro ⟨l, mem, rfl⟩
    have held := (h.slots l.id _).mpr ⟨l, mem, rfl, rfl⟩
    by_contra dead
    rw [none_iff.mpr (Bool.eq_false_of_not_eq_true dead)] at held
    cases held

theorem Accounts.of_same {S S' : Cosched} {census : Census} (h : Accounts S census)
    (same : ∀ id, occupant S' id = occupant S id) : Accounts S' census :=
  ⟨h.ids, h.serials, h.earlier, fun id what => by rw [same]; exact h.slots id what⟩

theorem TakesVacant.occupant_taken {S S' : Cosched} {func : Option Nat} {ud cid : Nat}
    (h : TakesVacant S func ud cid S') : occupant S' cid = some (func, ud) := by
  obtain ⟨c, held, status, rfl, rfl⟩ := h.now
  exact occupant_of held (by simp [status])

theorem Accounts.born {S S' : Cosched} {census : Census} {func : Option Nat} {ud cid : Nat}
    (h : Accounts S census) (taken : TakesVacant S func ud cid S') :
    Accounts S' ⟨census.born + 1, ⟨census.born, cid, func, ud⟩ :: census.alive⟩ := by
  have unused : ∀ l ∈ census.alive, l.id ≠ cid := fun l mem is => by
    have alive := (h.live_iff cid).mpr ⟨l, mem, is⟩
    rw [taken.was] at alive
    cases alive
  refine ⟨?_, ?_, ?_, fun id what => ?_⟩
  · refine List.nodup_cons.mpr ⟨fun mem => ?_, h.ids⟩
    obtain ⟨l, mem, is⟩ := List.mem_map.mp mem
    exact unused l mem is
  · refine List.nodup_cons.mpr ⟨fun mem => ?_, h.serials⟩
    obtain ⟨l, mem, is⟩ := List.mem_map.mp mem
    exact absurd (is ▸ h.earlier l mem) (Nat.lt_irrefl _)
  · intro l mem
    rcases List.mem_cons.mp mem with rfl | mem
    · exact Nat.lt_succ_self _
    · exact Nat.lt_succ_of_lt (h.earlier l mem)
  · by_cases is : id = cid
    · subst is
      rw [taken.occupant_taken]
      constructor
      · rintro ⟨⟩
        exact ⟨_, List.mem_cons_self, rfl, rfl⟩
      · rintro ⟨l, mem, is, rfl⟩
        rcases List.mem_cons.mp mem with rfl | mem
        · rfl
        · exact absurd is (unused l mem)
    · have same : occupant S' id = occupant S id := by
        rw [occupant, taken.others id is, occupant]
      rw [same, h.slots]
      constructor
      · rintro ⟨l, mem, rest⟩
        exact ⟨l, List.mem_cons_of_mem _ mem, rest⟩
      · rintro ⟨l, mem, isId, rest⟩
        rcases List.mem_cons.mp mem with rfl | mem
        · exact absurd isId.symm is
        · exact ⟨l, mem, isId, rest⟩

/-- With distinct ids, the end of a life removes the one life with that id. -/
theorem mem_ended {alive : List Life} (ids : (alive.map Life.id).Nodup) (exec : Nat) (l : Life) :
    l ∈ alive.eraseP (·.id == exec) ↔ l ∈ alive ∧ l.id ≠ exec := by
  induction alive with
  | nil => simp
  | cons first rest ih =>
      obtain ⟨unused, ids⟩ := List.nodup_cons.mp ids
      by_cases is : first.id = exec
      · rw [List.eraseP_cons_of_pos (by simpa using is)]
        constructor
        · intro mem
          refine ⟨List.mem_cons_of_mem _ mem, fun same => unused ?_⟩
          exact List.mem_map.mpr ⟨l, mem, same.trans is.symm⟩
        · rintro ⟨mem, other⟩
          rcases List.mem_cons.mp mem with rfl | mem
          · exact absurd is other
          · exact mem
      · rw [List.eraseP_cons_of_neg (by simpa using is), List.mem_cons, List.mem_cons, ih ids]
        constructor
        · rintro (rfl | ⟨mem, other⟩)
          · exact ⟨.inl rfl, is⟩
          · exact ⟨.inr mem, other⟩
        · rintro ⟨rfl | mem, other⟩
          · exact .inl rfl
          · exact .inr ⟨mem, other⟩

theorem Accounts.ended {S S' : Cosched} {census : Census} {exec : Nat} (h : Accounts S census)
    (gone : occupant S' exec = none)
    (others : ∀ id, id ≠ exec → occupant S' id = occupant S id) :
    Accounts S' { census with alive := census.alive.eraseP (·.id == exec) } := by
  have fewer : (census.alive.eraseP (·.id == exec)).Sublist census.alive := List.eraseP_sublist
  refine ⟨h.ids.sublist (fewer.map _), h.serials.sublist (fewer.map _),
    fun l mem => h.earlier l (fewer.subset mem), fun id what => ?_⟩
  by_cases is : id = exec
  · subst is
    rw [gone]
    constructor
    · rintro ⟨⟩
    · rintro ⟨l, mem, is, -⟩
      exact absurd is ((mem_ended h.ids _ l).mp mem).2
  · rw [others id is, h.slots]
    constructor
    · rintro ⟨l, mem, rfl, rest⟩
      exact ⟨l, (mem_ended h.ids _ l).mpr ⟨mem, is⟩, rfl, rest⟩
    · rintro ⟨l, mem, rest⟩
      exact ⟨l, ((mem_ended h.ids _ l).mp mem).1, rest⟩

/-! ## Runs -/

/-- The stack of resumers and the census, at one state of a run. -/
def Peopled (s : Machine × Census) : Prop :=
  (∃ below, Inv s.1 below) ∧ Accounts s.1.sch s.2

theorem Inv.takesVacant {m : Machine} {below : List Nat} (h : Inv m below) (func : Option Nat)
    (ud : Nat) : ∃ cid S', cortNew m.sch func ud = .ok (some cid, S') ∧
      TakesVacant m.sch func ud cid S' := by
  obtain ⟨c, here, -⟩ := h.current
  exact cortNew_takesVacant func ud h.cap_pos h.counted ⟨c, here⟩

/-- One step: the slots stay accounted for, and a life goes on until its slot is dead. -/
theorem countedStep_peopled {s s' : Machine × Census} {op : Op} (h : Peopled s)
    (taken : countedStep s op = .ok s') :
    Peopled s' ∧ ∀ l ∈ s.2.alive, l ∈ s'.2.alive ∨ live (s'.1.sch.cort l.id) = false := by
  obtain ⟨m, census⟩ := s
  obtain ⟨⟨below, inv⟩, counts⟩ := h
  simp only at inv counts
  unfold countedStep at taken
  obtain ⟨m', stepped, taken⟩ := bind_ok taken
  cases taken
  have later := step_inv inv stepped
  cases op with
  | new func ud =>
      obtain ⟨cid, S', made, vacant⟩ := Inv.takesVacant inv (some func) ud
      simp only [step, made, ok_bind, Except.ok.injEq] at stepped
      subst stepped
      simp only [Census.after, made]
      exact ⟨⟨later, counts.born vacant⟩, fun l mem => .inl (List.mem_cons_of_mem _ mem)⟩
  | resume id =>
      unfold step at stepped
      obtain ⟨⟨b, m₁⟩, resumed, stepped⟩ := bind_ok stepped
      cases stepped
      exact ⟨⟨later, counts.of_same (resume_occupant inv resumed)⟩, fun l mem => .inl mem⟩
  | yield =>
      unfold step at stepped
      obtain ⟨⟨b, m₁⟩, yielded, stepped⟩ := bind_ok stepped
      cases stepped
      exact ⟨⟨later, counts.of_same (yield_occupant inv yielded)⟩, fun l mem => .inl mem⟩
  | ret =>
      simp only [step] at stepped
      split at stepped
      · cases stepped
      · next not_main =>
        obtain ⟨gone, others⟩ := ret_occupant inv not_main stepped
        refine ⟨⟨later, counts.ended gone others⟩, fun l mem => ?_⟩
        by_cases is : l.id = m.exec
        · exact .inr (is ▸ (occupant_none_iff _ _).mp gone)
        · exact .inl ((mem_ended counts.ids _ l).mpr ⟨mem, is⟩)

/-- Keeping the census decides nothing: each run of the machine has one. -/
theorem counted_run {m m' : Machine} {ops : List Op} (census : Census)
    (reached : Runs.run step m ops = .ok m') :
    ∃ census', Runs.run countedStep (m, census) ops = .ok (m', census') := by
  induction ops generalizing m census with
  | nil =>
      cases reached
      exact ⟨census, rfl⟩
  | cons op rest ih =>
      obtain ⟨m₁, stepped, later⟩ := Runs.run_cons reached
      obtain ⟨census', ended⟩ := ih (census.after m op) later
      refine ⟨census', ?_⟩
      simp only [Runs.run, countedStep, stepped, ok_bind]
      exact ended

/-- A life whose id is live all along is the life of that id to the end. -/
theorem same_life {s t : Machine × Census} {ops : List Op} {l : Life} (h : Peopled s)
    (mem : l ∈ s.2.alive) (reached : Runs.run countedStep s ops = .ok t)
    (alive : Runs.Along countedStep (fun s _ => live (s.1.sch.cort l.id) = true) s ops)
    (at_end : live (t.1.sch.cort l.id) = true) : l ∈ t.2.alive := by
  have step : ∀ s op s', Peopled s ∧ (l ∈ s.2.alive ∨ live (s.1.sch.cort l.id) = false) →
      live (s.1.sch.cort l.id) = true → countedStep s op = .ok s' →
      Peopled s' ∧ (l ∈ s'.2.alive ∨ live (s'.1.sch.cort l.id) = false) := by
    rintro s op s' ⟨peopled, mem | dead⟩ lives taken
    · obtain ⟨peopled', lasts⟩ := countedStep_peopled peopled taken
      exact ⟨peopled', lasts l mem⟩
    · rw [dead] at lives
      cases lives
  rcases (Runs.invariant_along step ops s t ⟨h, .inl mem⟩ alive reached).2 with mem | dead
  · exact mem
  · rw [dead] at at_end
    cases at_end

/-- In every state of every run from `cort_open` the next `cort_new` takes a slot that is
empty or dead and leaves the others alone; the lives of the census have distinct ids and are
what the live slots hold; and an id that stays live denotes the same life. -/
theorem cort_new_never_steals (ops : List Op) (m : Machine)
    (reached : (do let start ← openMachine; Runs.run step start ops) = .ok m) :
    (∀ func ud, ∃ cid S', cortNew m.sch func ud = .ok (some cid, S') ∧
      TakesVacant m.sch func ud cid S') ∧
    ∃ census, Runs.run countedStep (openState, openCensus) ops = .ok (m, census) ∧
      Accounts m.sch census ∧
      ∀ l ∈ census.alive, ∀ later m' census',
        Runs.run countedStep (m, census) later = .ok (m', census') →
        Runs.Along countedStep (fun s _ => live (s.1.sch.cort l.id) = true) (m, census) later →
        live (m'.sch.cort l.id) = true → l ∈ census'.alive := by
  rw [openMachine_eq, ok_bind] at reached
  obtain ⟨census, counted⟩ := counted_run openCensus reached
  have peopled : Peopled (m, census) :=
    Runs.invariant (fun s op s' h taken => (countedStep_peopled h taken).1) ops
      (openState, openCensus) _ ⟨⟨[], openState_inv⟩, openState_accounts⟩ counted
  obtain ⟨below, inv⟩ := peopled.1
  exact ⟨Inv.takesVacant inv, census, counted, peopled.2,
    fun l mem later m' census' reached' alive at_end => same_life peopled mem reached' alive at_end⟩

set_option maxRecDepth 8000 in
/-- A creation, a death and a reuse of the slot: the third coroutine gets the id of the
second, whose life is over. -/
theorem cort_new_never_steals_reused :
    ∃ m, (do let start ← openMachine; Runs.run step start nestedOps) = .ok m ∧
      (∀ func ud, ∃ cid S', cortNew m.sch func ud = .ok (some cid, S') ∧
        TakesVacant m.sch func ud cid S') ∧
      ∃ census, Runs.run countedStep (openState, openCensus) nestedOps = .ok (m, census) ∧
        Accounts m.sch census ∧
        ∀ l ∈ census.alive, ∀ later m' census',
          Runs.run countedStep (m, census) later = .ok (m', census') →
          Runs.Along countedStep (fun s _ => live (s.1.sch.cort l.id) = true) (m, census) later →
          live (m'.sch.cort l.id) = true → l ∈ census'.alive := by
  obtain ⟨m, reached⟩ : ∃ m, (do let start ← openMachine; Runs.run step start nestedOps) = .ok m :=
    ⟨_, rfl⟩
  exact ⟨m, reached, cort_new_never_steals nestedOps m reached⟩

end Colinlib.Guarantees.CoroutineIdentity
