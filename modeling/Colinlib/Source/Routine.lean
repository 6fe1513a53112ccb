import Colinlib.Theory.CMemory
import Colinlib.Theory.Runs

/-!
# The coroutine scheduler of `co_routine.c`

The array `S->co` is a list of optional `cort_t` records, its length is `cap`.
A context is modelled by the place where it continues: the start of `cofunc`, or
the `coctx_swap` call in which a coroutine saved it. `Machine.exec` is the
coroutine whose code is on the processor; the source reads `S->running` instead,
and that the two agree is a theorem, not part of the model. Stacks (their size,
allocation and release) are left out: no scheduling decision reads them.
-/
namespace Colinlib.Source.Routine
open Colinlib.Theory.CMemory

/-- `CO_STATUS_*`. -/
inductive Status where
  | dead | suspend | running | normal
  deriving DecidableEq, Repr

/-- Where `coctx_swap` into a context continues: nowhere defined, at the start
of `cofunc`, or after the swap in which coroutine `who` saved it. -/
inductive Ctx where
  | unset
  | entry
  | saved (who : Nat)
  deriving DecidableEq, Repr

structure Cort where
  func : Option Nat
  ud : Nat
  pco : Nat
  ctx : Ctx
  status : Status
  deriving DecidableEq, Repr

structure Cosched where
  nco : Nat
  running : Nat
  co : List (Option Cort)
  deriving DecidableEq, Repr

def mainCoId : Nat := 0
def defaultCoroutine : Nat := 128

namespace Cosched

def cap (S : Cosched) : Nat := S.co.length

/-- `S->co[id]`, with an empty slot and an index outside the array both `none`. -/
def cort (S : Cosched) (id : Nat) : Option Cort := (S.co[id]?).join

def setCort (S : Cosched) (id : Nat) (c : Cort) : Cosched :=
  { S with co := S.co.set id (some c) }

def setNco (S : Cosched) (n : Nat) : Cosched := { S with nco := n }

def setRunning (S : Cosched) (id : Nat) : Cosched := { S with running := id }

def setStatus (S : Cosched) (id : Nat) (status : Status) : Except Fault Cosched :=
  match S.cort id with
  | none => .error .nullPointer
  | some c => .ok (S.setCort id { c with status := status })

end Cosched

/-- A slot `cort_new` may take: empty, or holding a dead coroutine. -/
def vacant (S : Cosched) (id : Nat) : Bool :=
  match S.cort id with
  | none => true
  | some c => c.status == .dead

/-- The search loop of `cort_new`: `cap` probes from `nco` on, modulo `cap`. -/
def findSlot (S : Cosched) : Option Nat :=
  ((List.range S.cap).map (fun i => (i + S.nco) % S.cap)).find? (vacant S)

/-- The choice of `cid`: the array is doubled only when no slot can be left. -/
def chooseSlot (S : Cosched) : Option Nat × Cosched :=
  if S.nco ≥ S.cap then
    (some S.cap, { S with co := S.co ++ List.replicate S.cap none })
  else
    (findSlot S, S)

/-- `cort_new`; the result `none` is the source's `-1`. -/
def cortNew (S : Cosched) (func : Option Nat) (ud : Nat) :
    Except Fault (Option Nat × Cosched) :=
  match chooseSlot S with
  | (none, S) => .ok (none, S)
  | (some cid, S) =>
      let co := (S.cort cid).getD ⟨none, 0, 0, .unset, .dead⟩
      let co := { co with func := func, ud := ud, status := .suspend }
      match func with
      | none => .ok (some cid, (S.setCort cid co).setNco (S.nco + 1))
      | some _ =>
          -- `assert(curco)`, then `coctx_make`
          if (S.setCort cid co).cort S.running = none then .error .assertion
          else .ok (some cid, (S.setCort cid { co with ctx := .entry }).setNco (S.nco + 1))

/-- `cort_open`: `running` is not initialised when the main coroutine is made,
and is not read there because it has no function. -/
def cortOpen : Except Fault Cosched := do
  let (cid, S) ← cortNew ⟨0, 0, List.replicate defaultCoroutine none⟩ none 0
  if cid = some mainCoId then do
    let S ← S.setStatus mainCoId .running
    .ok (S.setRunning mainCoId)
  else .error .assertion

/-! ## Control transfers -/

/-- What the run has done so far with the processor, newest first. -/
inductive Transfer where
  | resume (resumer resumed : Nat)
  | leave (id : Nat)
  deriving DecidableEq, Repr

structure Machine where
  sch : Cosched
  exec : Nat
  trace : List Transfer
  deriving DecidableEq, Repr

/-- `coctx_swap(.., &S->co[to]->ctx)`: the code that runs next. `cofunc` takes its
identity from `S->running`. -/
def switchTo (S : Cosched) (target : Nat) : Except Fault Nat :=
  match S.cort target with
  | none => .error .nullPointer
  | some c =>
    match c.ctx with
    | .unset => .error .badPointer
    | .entry => .ok S.running
    | .saved who => .ok who

/-- The save half of `coctx_swap(&S->co[id]->ctx, ..)`. -/
def saveCtx (S : Cosched) (id exec : Nat) : Except Fault Cosched :=
  match S.cort id with
  | none => .error .nullPointer
  | some c => .ok (S.setCort id { c with ctx := .saved exec })

/-- `cort_resume`. The boolean is false where the source returns `-1` at once. -/
def cortResume (m : Machine) (id : Nat) : Except Fault (Bool × Machine) :=
  let S := m.sch
  if id < S.cap then
    match S.cort id, S.cort S.running with
    | some co, some _ =>
      match co.status with
      | .suspend => do
          let resumer := S.running
          let S ← S.setStatus resumer .normal
          let co ← (match S.cort id with | some c => .ok c | none => .error .nullPointer)
          let S := S.setCort id { co with pco := resumer, status := .running }
          let S := S.setRunning id
          let S ← saveCtx S resumer m.exec
          let exec ← switchTo S id
          .ok (true, ⟨S, exec, .resume m.exec id :: m.trace⟩)
      | _ => .ok (false, m)
    | _, _ => .ok (false, m)
  else .error .assertion

/-- `cort_yield`. -/
def cortYield (m : Machine) : Except Fault (Bool × Machine) :=
  let S := m.sch
  let id := S.running
  if id = mainCoId then .ok (false, m)
  else
    match S.cort id with
    | none => .error .nullPointer
    | some co => do
        let S ← S.setStatus id .suspend
        let S ← S.setStatus co.pco .running
        let S := S.setRunning co.pco
        let S ← saveCtx S id m.exec
        let exec ← switchTo S co.pco
        .ok (true, ⟨S, exec, .leave m.exec :: m.trace⟩)

/-- The tail of `cofunc`, after the coroutine's function has returned. `id` is
the local variable `cofunc` read when the coroutine was started. -/
def cofuncReturn (m : Machine) (id : Nat) : Except Fault Machine :=
  match m.sch.cort id with
  | none => .error .nullPointer
  | some co => do
      let S ← m.sch.setStatus id .dead
      let S := S.setNco (S.nco - 1)
      let S ← S.setStatus co.pco .running
      let S := S.setRunning co.pco
      let exec ← switchTo S co.pco
      .ok ⟨S, exec, .leave m.exec :: m.trace⟩

/-- What the running code may do next. -/
inductive Op where
  | new (func ud : Nat)
  | resume (id : Nat)
  | yield
  | ret
  deriving DecidableEq, Repr

/-- One operation of the executing coroutine. The main program has no `cofunc`:
when it returns, the process ends. -/
def step (m : Machine) : Op → Except Fault Machine
  | .new func ud => do
      let (_, S) ← cortNew m.sch (some func) ud
      .ok { m with sch := S }
  | .resume id => do
      let (_, m) ← cortResume m id
      .ok m
  | .yield => do
      let (_, m) ← cortYield m
      .ok m
  | .ret => if m.exec = mainCoId then .error .exited else cofuncReturn m m.exec

/-- The machine `cort_open` leaves, on the main program's stack. -/
def openMachine : Except Fault Machine := do
  let S ← cortOpen
  .ok ⟨S, mainCoId, []⟩

/-- The state after `cort_open`: one running coroutine, 127 empty slots. -/
def openState : Machine :=
  ⟨⟨1, mainCoId, some ⟨none, 0, 0, .unset, .running⟩ :: List.replicate 127 none⟩, mainCoId, []⟩

set_option maxRecDepth 4000 in
theorem openMachine_eq : openMachine = .ok openState := rfl

/-! ## What the operations do to the slots -/

theorem cort_lt {S : Cosched} {id : Nat} {c : Cort} (h : S.cort id = some c) : id < S.cap := by
  by_contra hn
  have hnone : S.co[id]? = none := List.getElem?_eq_none (Nat.le_of_not_lt hn)
  simp [Cosched.cort, hnone] at h

@[simp] theorem setCort_cap (S : Cosched) (id : Nat) (c : Cort) :
    (S.setCort id c).cap = S.cap := by simp [Cosched.setCort, Cosched.cap]

@[simp] theorem setCort_nco (S : Cosched) (id : Nat) (c : Cort) :
    (S.setCort id c).nco = S.nco := rfl

@[simp] theorem setCort_running (S : Cosched) (id : Nat) (c : Cort) :
    (S.setCort id c).running = S.running := rfl

theorem setCort_cort {S : Cosched} {id : Nat} (h : id < S.cap) (c : Cort) (j : Nat) :
    (S.setCort id c).cort j = if j = id then some c else S.cort j := by
  simp only [Cosched.setCort, Cosched.cort, List.getElem?_set]
  by_cases hj : id = j
  · subst hj
    have hb : id < S.co.length := h
    simp [hb]
  · rw [if_neg hj, if_neg (Ne.symm hj)]

def live : Option Cort → Bool
  | none => false
  | some c => c.status != .dead

/-- The number of coroutines that are not dead. -/
def liveCount (S : Cosched) : Nat := S.co.countP live

theorem liveCount_setCort {S : Cosched} {id : Nat} (h : id < S.cap) (c : Cort) :
    liveCount (S.setCort id c) + (live (S.cort id)).toNat =
      liveCount S + (live (some c)).toNat := by
  have hb : id < S.co.length := h
  have hcort : S.cort id = S.co[id] := by simp [Cosched.cort, hb]
  have hpos : live S.co[id] = true → 0 < S.co.countP live := fun hl =>
    List.countP_pos_iff.mpr ⟨S.co[id], List.getElem_mem hb, hl⟩
  simp only [liveCount, Cosched.setCort, List.countP_set hb, hcort]
  cases hl : live S.co[id] <;> cases hc : live (some c) <;> simp_all

/-- Rewriting a slot without changing whether it is live keeps the count. -/
theorem liveCount_setCort_same {S : Cosched} {id : Nat} (h : id < S.cap) (c : Cort)
    (same : live (some c) = live (S.cort id)) : liveCount (S.setCort id c) = liveCount S := by
  have := liveCount_setCort h c
  rw [same] at this
  omega

theorem setStatus_some {S : Cosched} {id : Nat} {c : Cort} (h : S.cort id = some c)
    (status : Status) :
    S.setStatus id status = .ok (S.setCort id { c with status := status }) := by
  simp [Cosched.setStatus, h]

theorem saveCtx_some {S : Cosched} {id : Nat} {c : Cort} (h : S.cort id = some c) (exec : Nat) :
    saveCtx S id exec = .ok (S.setCort id { c with ctx := .saved exec }) := by
  simp [saveCtx, h]

theorem cort_cap (S : Cosched) : S.cort S.cap = none := by
  have hnone : S.co[S.cap]? = none := List.getElem?_eq_none (Nat.le_refl _)
  simp [Cosched.cort, hnone]

/-- The slot `cort_new` picks is vacant, and picking it changes no coroutine. -/
theorem chooseSlot_some {S S₁ : Cosched} {cid : Nat} (hcap : 0 < S.cap)
    (h : chooseSlot S = (some cid, S₁)) :
    cid < S₁.cap ∧ S.cap ≤ S₁.cap ∧ vacant S cid = true ∧ (∀ j, S₁.cort j = S.cort j) ∧
      S₁.nco = S.nco ∧ S₁.running = S.running ∧ liveCount S₁ = liveCount S := by
  unfold chooseSlot at h
  split at h
  · simp only [Prod.mk.injEq, Option.some.injEq] at h
    obtain ⟨rfl, rfl⟩ := h
    have hlen : (S.co ++ List.replicate S.cap none).length = S.cap + S.cap := by
      simp [Cosched.cap]
    refine ⟨?_, ?_, by simp [vacant, cort_cap], fun j => ?_, rfl, rfl, ?_⟩
    · show S.cap < (S.co ++ List.replicate S.cap none).length
      omega
    · show S.cap ≤ (S.co ++ List.replicate S.cap none).length
      omega
    · -- the new half of the array is empty
      simp only [Cosched.cort]
      by_cases hj : j < S.co.length
      · rw [List.getElem?_append_left hj]
      · rw [List.getElem?_append_right (by omega), List.getElem?_eq_none (l := S.co) (by omega),
          List.getElem?_replicate]
        split <;> rfl
    · simp [liveCount, List.countP_replicate, live]
  · simp only [Prod.mk.injEq] at h
    obtain ⟨hfind, rfl⟩ := h
    refine ⟨?_, Nat.le_refl _, List.find?_some hfind, fun j => rfl, rfl, rfl, rfl⟩
    obtain ⟨i, hi, rfl⟩ := List.mem_map.mp (List.mem_of_find?_eq_some hfind)
    exact Nat.mod_lt _ hcap

theorem chooseSlot_none {S S₁ : Cosched} (h : chooseSlot S = (none, S₁)) : S₁ = S := by
  unfold chooseSlot at h
  split at h
  · simp at h
  · simp only [Prod.mk.injEq] at h
    exact h.2.symm

@[simp] theorem setNco_nco (S : Cosched) (n : Nat) : (S.setNco n).nco = n := rfl
@[simp] theorem setNco_running (S : Cosched) (n : Nat) : (S.setNco n).running = S.running := rfl
@[simp] theorem setNco_cort (S : Cosched) (n j : Nat) : (S.setNco n).cort j = S.cort j := rfl
@[simp] theorem setNco_cap (S : Cosched) (n : Nat) : (S.setNco n).cap = S.cap := rfl
@[simp] theorem setNco_liveCount (S : Cosched) (n : Nat) :
    liveCount (S.setNco n) = liveCount S := rfl
@[simp] theorem setRunning_nco (S : Cosched) (r : Nat) : (S.setRunning r).nco = S.nco := rfl
@[simp] theorem setRunning_running (S : Cosched) (r : Nat) : (S.setRunning r).running = r := rfl
@[simp] theorem setRunning_cort (S : Cosched) (r j : Nat) :
    (S.setRunning r).cort j = S.cort j := rfl
@[simp] theorem setRunning_cap (S : Cosched) (r : Nat) : (S.setRunning r).cap = S.cap := rfl
@[simp] theorem setRunning_liveCount (S : Cosched) (r : Nat) :
    liveCount (S.setRunning r) = liveCount S := rfl

theorem live_of_vacant {S : Cosched} {id : Nat} (h : vacant S id = true) :
    live (S.cort id) = false := by
  unfold vacant at h
  unfold live
  split <;> simp_all

/-- `cort_new` either finds no slot and changes nothing, or fills one vacant
slot with a suspended coroutine that has not started. -/
theorem cortNew_effects {S : Cosched} (func ud : Nat) (hcap : 0 < S.cap)
    (hrun : ∃ c, S.cort S.running = some c) :
    cortNew S (some func) ud = .ok (none, S) ∨
    ∃ cid c S', cortNew S (some func) ud = .ok (some cid, S') ∧ vacant S cid = true ∧
      c.status = .suspend ∧ c.ctx = .entry ∧
      (∀ j, S'.cort j = if j = cid then some c else S.cort j) ∧
      S'.running = S.running ∧ S'.nco = S.nco + 1 ∧ S.cap ≤ S'.cap ∧
      liveCount S' = liveCount S + 1 := by
  obtain ⟨cur, hcur⟩ := hrun
  unfold cortNew
  rcases hslot : chooseSlot S with ⟨_ | cid, S₁⟩
  · exact Or.inl (by rw [chooseSlot_none hslot])
  · obtain ⟨hlt, hgrow, hvac, hsame, hnco, hrunning, hlive⟩ := chooseSlot_some hcap hslot
    dsimp only
    generalize (S₁.cort cid).getD ⟨none, 0, 0, .unset, .dead⟩ = old
    have hassert : (S₁.setCort cid { old with func := some func, ud := ud, status := .suspend }).cort
        S₁.running ≠ none := by
      rw [setCort_cort hlt, hsame, hrunning, hcur]
      split <;> simp
    rw [if_neg hassert]
    have hcount := liveCount_setCort hlt
      { old with func := some func, ud := ud, status := .suspend, ctx := .entry }
    rw [hsame, live_of_vacant hvac, hlive] at hcount
    refine Or.inr ⟨cid, { old with func := some func, ud := ud, status := .suspend, ctx := .entry },
      _, rfl, hvac, rfl, rfl, fun j => ?_, hrunning, congrArg (· + 1) hnco, ?_, ?_⟩
    · rw [setNco_cort, setCort_cort hlt, hsame]
    · simpa using hgrow
    · rw [setNco_liveCount]
      exact hcount

/-- A resume of a suspended coroutine with a defined context: the caller becomes
normal and saves its context, the target runs, every other slot is untouched. -/
theorem cortResume_effects {m : Machine} {id : Nat} {co cur : Cort}
    (hid : m.sch.cort id = some co) (hst : co.status = .suspend)
    (hctx : co.ctx = .entry ∨ co.ctx = .saved id)
    (hcur : m.sch.cort m.sch.running = some cur) (hrun : cur.status = .running) :
    ∃ S', cortResume m id = .ok (true, ⟨S', id, .resume m.exec id :: m.trace⟩) ∧
      S'.running = id ∧ S'.nco = m.sch.nco ∧ S'.cap = m.sch.cap ∧
      liveCount S' = liveCount m.sch ∧
      ∀ j, S'.cort j =
        if j = m.sch.running then some { cur with status := .normal, ctx := .saved m.exec }
        else if j = id then some { co with status := .running, pco := m.sch.running }
        else m.sch.cort j := by
  have hne : id ≠ m.sch.running := by
    rintro rfl
    rw [hid] at hcur
    cases hcur
    rw [hst] at hrun
    cases hrun
  have hidlt := cort_lt hid
  have hcurlt := cort_lt hcur
  obtain ⟨r, hr⟩ : ∃ r, r = m.sch.running := ⟨_, rfl⟩
  rw [← hr] at hcur hne hcurlt ⊢
  obtain ⟨S₁, hS₁⟩ : ∃ S₁, S₁ = m.sch.setCort r { cur with status := .normal } := ⟨_, rfl⟩
  have hcap₁ : S₁.cap = m.sch.cap := by rw [hS₁, setCort_cap]
  have hget₁ : ∀ j, S₁.cort j = if j = r then some { cur with status := .normal }
      else m.sch.cort j := fun j => by rw [hS₁, setCort_cort hcurlt]
  obtain ⟨S₂, hS₂⟩ : ∃ S₂, S₂ = (S₁.setCort id { co with pco := r, status := .running }).setRunning
      id := ⟨_, rfl⟩
  have hget₂ : ∀ j, S₂.cort j = if j = id then some { co with pco := r, status := .running }
      else S₁.cort j := fun j => by rw [hS₂, setRunning_cort, setCort_cort (by omega)]
  have hsave : S₂.cort r = some { cur with status := .normal } := by
    rw [hget₂, if_neg (Ne.symm hne), hget₁, if_pos rfl]
  refine ⟨S₂.setCort r { cur with status := .normal, ctx := .saved m.exec }, ?_, ?_, ?_, ?_, ?_, ?_⟩
  · have hsw : switchTo (S₂.setCort r { cur with status := .normal, ctx := .saved m.exec }) id
        = .ok id := by
      have hget : (S₂.setCort r { cur with status := .normal, ctx := .saved m.exec }).cort id
          = some { co with pco := r, status := .running } := by
        rw [setCort_cort (by rw [hS₂]; simp; omega), if_neg hne, hget₂, if_pos rfl]
      unfold switchTo
      rw [hget]
      rcases hctx with hctx | hctx <;> simp [hctx, hS₂]
    unfold cortResume
    simp only [if_pos hidlt, hid, ← hr, hcur, hst, setStatus_some hcur, ok_bind, ← hS₁,
      hget₁ id, if_neg hne, ← hS₂, saveCtx_some hsave, hsw]
  · simp [hS₂]
  · simp [hS₂, hS₁]
  · simp [hS₂, hcap₁]
  · rw [liveCount_setCort_same (by rw [hS₂]; simp; omega) _ (by rw [hsave]; rfl), hS₂,
      setRunning_liveCount, liveCount_setCort_same (by omega) _
        (by rw [hget₁, if_neg hne, hid]; simp only [live, hst]; rfl), hS₁,
      liveCount_setCort_same hcurlt _ (by rw [hcur]; simp only [live, hrun]; rfl)]
  · intro j
    rw [setCort_cort (by rw [hS₂]; simp; omega), hget₂, hget₁]
    split <;> simp_all

/-- A yield outside the main coroutine: the caller is suspended with its context
saved, and control goes back into the coroutine named by its `pco` field. -/
theorem cortYield_effects {m : Machine} {co pc : Cort} (hmain : m.sch.running ≠ mainCoId)
    (hco : m.sch.cort m.sch.running = some co) (hrun : co.status = .running)
    (hpc : m.sch.cort co.pco = some pc) (hst : pc.status = .normal)
    (hctx : pc.ctx = .saved co.pco) :
    ∃ S', cortYield m = .ok (true, ⟨S', co.pco, .leave m.exec :: m.trace⟩) ∧
      S'.running = co.pco ∧ S'.nco = m.sch.nco ∧ S'.cap = m.sch.cap ∧
      liveCount S' = liveCount m.sch ∧
      ∀ j, S'.cort j =
        if j = m.sch.running then some { co with status := .suspend, ctx := .saved m.exec }
        else if j = co.pco then some { pc with status := .running }
        else m.sch.cort j := by
  obtain ⟨r, hr⟩ : ∃ r, r = m.sch.running := ⟨_, rfl⟩
  rw [← hr] at hco hmain ⊢
  have hne : co.pco ≠ r := by
    intro he
    rw [he, hco] at hpc
    cases hpc
    rw [hst] at hrun
    cases hrun
  have hrlt := cort_lt hco
  have hplt := cort_lt hpc
  obtain ⟨S₁, hS₁⟩ : ∃ S₁, S₁ = m.sch.setCort r { co with status := .suspend } := ⟨_, rfl⟩
  have hget₁ : ∀ j, S₁.cort j = if j = r then some { co with status := .suspend }
      else m.sch.cort j := fun j => by rw [hS₁, setCort_cort hrlt]
  have hpc₁ : S₁.cort co.pco = some pc := by rw [hget₁, if_neg hne, hpc]
  obtain ⟨S₂, hS₂⟩ : ∃ S₂, S₂ = (S₁.setCort co.pco { pc with status := .running }).setRunning
      co.pco := ⟨_, rfl⟩
  have hcap₂ : S₂.cap = m.sch.cap := by rw [hS₂, hS₁]; simp
  have hget₂ : ∀ j, S₂.cort j = if j = co.pco then some { pc with status := .running }
      else S₁.cort j := fun j => by
    rw [hS₂, setRunning_cort, setCort_cort (by rw [hS₁, setCort_cap]; exact hplt)]
  have hsave : S₂.cort r = some { co with status := .suspend } := by
    rw [hget₂, if_neg (Ne.symm hne), hget₁, if_pos rfl]
  refine ⟨S₂.setCort r { co with status := .suspend, ctx := .saved m.exec },
    ?_, ?_, ?_, ?_, ?_, ?_⟩
  · have hsw : switchTo (S₂.setCort r { co with status := .suspend, ctx := .saved m.exec })
        co.pco = .ok co.pco := by
      have hget : (S₂.setCort r { co with status := .suspend, ctx := .saved m.exec }).cort co.pco
          = some { pc with status := .running } := by
        rw [setCort_cort (by omega), if_neg hne, hget₂, if_pos rfl]
      simp only [switchTo, hget, hctx]
    unfold cortYield
    simp only [← hr, if_neg hmain, hco, setStatus_some hco, ok_bind, ← hS₁,
      setStatus_some hpc₁, ← hS₂, saveCtx_some hsave, hsw]
  · simp [hS₂]
  · simp [hS₂, hS₁]
  · simp [hcap₂]
  · rw [liveCount_setCort_same (by omega) _ (by rw [hsave]; rfl), hS₂,
      setRunning_liveCount, liveCount_setCort_same (by rw [hS₁, setCort_cap]; exact hplt) _
        (by rw [hpc₁]; simp only [live, hst]; rfl), hS₁,
      liveCount_setCort_same hrlt _ (by rw [hco]; simp only [live, hrun]; rfl)]
  · intro j
    rw [setCort_cort (by omega), hget₂, hget₁]
    split <;> simp_all

/-- A return of the coroutine's function: as a yield, but the slot is dead, one
coroutine fewer is counted and no context is saved. -/
theorem cofuncReturn_effects {m : Machine} {co pc : Cort}
    (hco : m.sch.cort m.exec = some co) (hrun : co.status = .running)
    (hpc : m.sch.cort co.pco = some pc) (hst : pc.status = .normal)
    (hctx : pc.ctx = .saved co.pco) :
    ∃ S', cofuncReturn m m.exec = .ok ⟨S', co.pco, .leave m.exec :: m.trace⟩ ∧
      S'.running = co.pco ∧ S'.nco = m.sch.nco - 1 ∧ S'.cap = m.sch.cap ∧
      liveCount S' + 1 = liveCount m.sch ∧
      ∀ j, S'.cort j =
        if j = m.exec then some { co with status := .dead }
        else if j = co.pco then some { pc with status := .running }
        else m.sch.cort j := by
  have hne : co.pco ≠ m.exec := by
    intro he
    rw [he, hco] at hpc
    cases hpc
    rw [hst] at hrun
    cases hrun
  have hrlt := cort_lt hco
  have hplt := cort_lt hpc
  obtain ⟨S₁, hS₁⟩ : ∃ S₁, S₁ = m.sch.setCort m.exec { co with status := .dead } := ⟨_, rfl⟩
  have hget₁ : ∀ j, S₁.cort j = if j = m.exec then some { co with status := .dead }
      else m.sch.cort j := fun j => by rw [hS₁, setCort_cort hrlt]
  have hpc₁ : (S₁.setNco (S₁.nco - 1)).cort co.pco = some pc := by
    rw [setNco_cort, hget₁, if_neg hne, hpc]
  have hcap₁ : S₁.cap = m.sch.cap := by rw [hS₁, setCort_cap]
  obtain ⟨S₂, hS₂⟩ : ∃ S₂, S₂ = ((S₁.setNco (S₁.nco - 1)).setCort co.pco
      { pc with status := .running }).setRunning co.pco := ⟨_, rfl⟩
  have hget₂ : ∀ j, S₂.cort j = if j = co.pco then some { pc with status := .running }
      else S₁.cort j := fun j => by
    rw [hS₂, setRunning_cort, setCort_cort (by rw [setNco_cap, hcap₁]; exact hplt), setNco_cort]
  refine ⟨S₂, ?_, ?_, ?_, ?_, ?_, ?_⟩
  · have hsw : switchTo S₂ co.pco = .ok co.pco := by
      simp only [switchTo, hget₂, if_pos, hctx]
    unfold cofuncReturn
    simp only [hco, setStatus_some hco, ok_bind, ← hS₁, setStatus_some hpc₁, ← hS₂, hsw]
  · simp [hS₂]
  · simp [hS₂, hS₁]
  · simp [hS₂, hcap₁]
  · have hdead := liveCount_setCort hrlt { co with status := .dead }
    rw [hco, ← hS₁] at hdead
    rw [hS₂, setRunning_liveCount, liveCount_setCort_same (by rw [setNco_cap, hcap₁]; exact hplt) _
        (by rw [hpc₁]; simp only [live, hst]; rfl), setNco_liveCount]
    have hlive : live (some co) = true := by simp only [live, hrun]; rfl
    rw [hlive] at hdead
    simpa [live] using hdead
  · intro j
    rw [hget₂, hget₁]
    by_cases hj : j = m.exec
    · subst hj
      rw [if_neg (Ne.symm hne), if_pos rfl, if_pos rfl]
    · simp only [if_neg hj]

end Colinlib.Source.Routine
