import Colinlib.Source.Routine

/-!
# Scheduler discipline

The chain of resumers is an implicit stack threaded through the `pco` fields.
`Inv` names that stack: the running coroutine, below it the coroutines it was
resumed through, the main coroutine at the bottom. Every operation pushes, pops
or leaves it alone, so the statuses in a reachable state are read off the stack.
-/
namespace Colinlib.Guarantees.SchedulerDiscipline
open Colinlib.Theory.CMemory Colinlib.Theory Colinlib.Source.Routine

/-- Following `pco` from the head visits exactly the rest and ends at main. -/
def Linked (S : Cosched) : List Nat → Prop
  | [] => False
  | [id] => id = mainCoId
  | id :: next :: rest =>
      id ≠ mainCoId ∧ (∃ c, S.cort id = some c ∧ c.pco = next) ∧ Linked S (next :: rest)

/-- The resumes that no yield or return has answered yet, newest first, read off
the history of control transfers alone. -/
def pending : List Transfer → List (Nat × Nat)
  | [] => []
  | .resume resumer resumed :: before => (resumer, resumed) :: pending before
  | .leave _ :: before => (pending before).tail

/-- The resumer/resumed pairs of a stack. -/
def pairs : List Nat → List (Nat × Nat)
  | id :: next :: rest => (next, id) :: pairs (next :: rest)
  | _ => []

/-- A slot outside the stack: empty, dead, or suspended with a usable context. -/
def Parked (S : Cosched) (id : Nat) : Prop :=
  ∀ c, S.cort id = some c →
    c.status = .dead ∨ (c.status = .suspend ∧ (c.ctx = .entry ∨ c.ctx = .saved id))

structure Inv (m : Machine) (below : List Nat) : Prop where
  on_cpu : m.exec = m.sch.running
  linked : Linked m.sch (m.sch.running :: below)
  distinct : (m.sch.running :: below).Nodup
  current : ∃ c, m.sch.cort m.sch.running = some c ∧ c.status = .running
  waiting : ∀ id ∈ below, ∃ c, m.sch.cort id = some c ∧ c.status = .normal ∧ c.ctx = .saved id
  parked : ∀ id, id ∉ m.sch.running :: below → Parked m.sch id
  counted : m.sch.nco = liveCount m.sch
  history : pending m.trace = pairs (m.sch.running :: below)

theorem Linked.main_mem {S : Cosched} {stack : List Nat} (h : Linked S stack) :
    mainCoId ∈ stack := by
  induction stack with
  | nil => exact h.elim
  | cons id rest ih =>
      cases rest with
      | nil => exact List.mem_singleton.mpr h.symm
      | cons next rest => exact List.mem_cons_of_mem _ (ih h.2.2)

/-- The links of a stack depend only on the `pco` fields of its members. -/
theorem Linked.congr {S S' : Cosched} {stack : List Nat} (h : Linked S stack)
    (same : ∀ id ∈ stack, ∀ c, S.cort id = some c → ∃ c', S'.cort id = some c' ∧ c'.pco = c.pco) :
    Linked S' stack := by
  induction stack with
  | nil => exact h
  | cons id rest ih =>
      cases rest with
      | nil => exact h
      | cons next rest =>
          obtain ⟨hid, ⟨c, hc, hp⟩, hrest⟩ := h
          obtain ⟨c', hc', hp'⟩ := same id (by simp) c hc
          exact ⟨hid, ⟨c', hc', hp'.trans hp⟩,
            ih hrest (fun j hj => same j (List.mem_cons_of_mem _ hj))⟩

/-- The main coroutine has no resumer: it is the bottom of the stack. -/
theorem Inv.below_of_not_main {m : Machine} {below : List Nat} (h : Inv m below)
    (hm : m.sch.running ≠ mainCoId) : ∃ next rest, below = next :: rest := by
  cases below with
  | nil => exact absurd h.linked hm
  | cons next rest => exact ⟨next, rest, rfl⟩

theorem Inv.cap_pos {m : Machine} {below : List Nat} (h : Inv m below) : 0 < m.sch.cap := by
  obtain ⟨c, hc, -⟩ := h.current
  exact Nat.lt_of_le_of_lt (Nat.zero_le _) (cort_lt hc)

/-! ## The operations keep the invariant -/

theorem openState_cort {id : Nat} (h : id ≠ mainCoId) : openState.sch.cort id = none := by
  cases id with
  | zero => exact absurd rfl h
  | succ n =>
      simp only [openState, Cosched.cort, List.getElem?_cons_succ, List.getElem?_replicate]
      split <;> rfl

theorem openState_inv : Inv openState [] := by
  refine ⟨rfl, rfl, by simp, ⟨_, rfl, rfl⟩, by simp, ?_, ?_, rfl⟩
  · intro id hid c hc
    rw [openState_cort (fun he => hid (by rw [he]; exact List.mem_singleton.mpr rfl))] at hc
    cases hc
  · simp [liveCount, openState, List.countP_cons, live]

/-- A vacant slot is not on the stack, so filling it disturbs nothing on it. -/
theorem Inv.not_mem_of_vacant {m : Machine} {below : List Nat} (h : Inv m below) {id : Nat}
    (hv : vacant m.sch id = true) : id ∉ m.sch.running :: below := by
  intro hmem
  unfold vacant at hv
  rcases List.mem_cons.mp hmem with rfl | hmem
  · obtain ⟨c, hc, hs⟩ := h.current
    simp [hc, hs] at hv
  · obtain ⟨c, hc, hs, -⟩ := h.waiting id hmem
    simp [hc, hs] at hv

theorem new_inv {m : Machine} {below : List Nat} (h : Inv m below) (func ud : Nat) :
    ∃ m', step m (.new func ud) = .ok m' ∧ Inv m' below := by
  obtain ⟨cur, hcur, hrun⟩ := h.current
  rcases cortNew_effects func ud h.cap_pos ⟨cur, hcur⟩ with hnone | hsome
  · exact ⟨m, by simp [step, hnone], h⟩
  · obtain ⟨cid, c, S', hnew, hvac, hst, hctx, hget, hrunning, hnco, -, hlive⟩ := hsome
    have hfresh := h.not_mem_of_vacant hvac
    have hkeep : ∀ id ∈ m.sch.running :: below, S'.cort id = m.sch.cort id := by
      intro id hid
      rw [hget, if_neg]
      rintro rfl
      exact hfresh hid
    refine ⟨{ m with sch := S' }, by simp [step, hnew], ?_⟩
    refine ⟨by rw [h.on_cpu, hrunning], ?_, ?_, ?_, ?_, ?_, ?_, ?_⟩
    · rw [hrunning]
      exact h.linked.congr (fun id hid c hc => ⟨c, by rw [hkeep id hid, hc], rfl⟩)
    · rw [hrunning]
      exact h.distinct
    · exact ⟨cur, by rw [hrunning, hkeep _ (by simp), hcur], hrun⟩
    · intro id hid
      rw [hkeep id (List.mem_cons_of_mem _ hid)]
      exact h.waiting id hid
    · intro id hid c' hc'
      rw [hrunning] at hid
      rw [hget] at hc'
      by_cases he : id = cid
      · rw [if_pos he] at hc'
        cases hc'
        exact Or.inr ⟨hst, Or.inl hctx⟩
      · rw [if_neg he] at hc'
        exact h.parked id hid c' hc'
    · rw [hnco, hlive, h.counted]
    · rw [hrunning]
      exact h.history

/-- A suspended coroutine is outside the stack and has a context to continue in. -/
theorem Inv.resumable {m : Machine} {below : List Nat} (h : Inv m below) {id : Nat} {co : Cort}
    (hid : m.sch.cort id = some co) (hst : co.status = .suspend) :
    id ∉ m.sch.running :: below ∧ (co.ctx = .entry ∨ co.ctx = .saved id) := by
  have hout : id ∉ m.sch.running :: below := by
    intro hmem
    rcases List.mem_cons.mp hmem with rfl | hmem
    · obtain ⟨cur, hcur, hrun⟩ := h.current
      rw [hid] at hcur
      cases hcur
      rw [hst] at hrun
      cases hrun
    · obtain ⟨c, hc, hs, -⟩ := h.waiting id hmem
      rw [hid] at hc
      cases hc
      rw [hst] at hs
      cases hs
  refine ⟨hout, ?_⟩
  rcases h.parked id hout co hid with hdead | hsus
  · rw [hst] at hdead
    cases hdead
  · exact hsus.2

/-- A coroutine that can be resumed is not on the stack, so the resume pushes it. -/
theorem resume_inv {m : Machine} {below : List Nat} (h : Inv m below) {id : Nat} {co : Cort}
    (hid : m.sch.cort id = some co) (hst : co.status = .suspend) :
    ∃ m', cortResume m id = .ok (true, m') ∧ m'.exec = id ∧
      Inv m' (m.sch.running :: below) := by
  obtain ⟨cur, hcur, hrun⟩ := h.current
  obtain ⟨hout, hctx⟩ := h.resumable hid hst
  obtain ⟨S', heq, hrunning, hnco, -, hlive, hget⟩ := cortResume_effects hid hst hctx hcur hrun
  have hne : id ≠ m.sch.running := fun he => hout (by simp [he])
  have hbelow : ∀ j ∈ below, S'.cort j = m.sch.cort j := by
    intro j hj
    have hj1 : j ≠ m.sch.running := fun he => (List.nodup_cons.mp h.distinct).1 (he ▸ hj)
    have hj2 : j ≠ id := fun he => hout (List.mem_cons_of_mem _ (he ▸ hj))
    rw [hget, if_neg hj1, if_neg hj2]
  have htop : S'.cort id = some { co with status := .running, pco := m.sch.running } := by
    rw [hget, if_neg hne, if_pos rfl]
  have hold : S'.cort m.sch.running
      = some { cur with status := .normal, ctx := .saved m.exec } := by
    rw [hget, if_pos rfl]
  refine ⟨_, heq, rfl, ?_⟩
  refine ⟨hrunning.symm, ?_, ?_, ?_, ?_, ?_, ?_, ?_⟩
  · rw [hrunning]
    refine ⟨fun he => hout (he ▸ h.linked.main_mem), ⟨_, htop, rfl⟩, ?_⟩
    refine h.linked.congr (fun j hj c hc => ?_)
    rcases List.mem_cons.mp hj with rfl | hj
    · rw [hcur] at hc
      cases hc
      exact ⟨_, hold, rfl⟩
    · exact ⟨c, by rw [hbelow j hj, hc], rfl⟩
  · rw [hrunning]
    exact List.nodup_cons.mpr ⟨hout, h.distinct⟩
  · exact ⟨_, by rw [hrunning]; exact htop, rfl⟩
  · intro j hj
    rcases List.mem_cons.mp hj with rfl | hj
    · exact ⟨_, hold, rfl, by rw [h.on_cpu]⟩
    · rw [hbelow j hj]
      exact h.waiting j hj
  · intro j hj c hc
    rw [hrunning] at hj
    have hj1 : j ≠ id := fun he => hj (by simp [he])
    have hj2 : j ≠ m.sch.running := fun he => hj (by simp [he])
    rw [hget, if_neg hj2, if_neg hj1] at hc
    exact h.parked j (fun hmem => hj (List.mem_cons_of_mem _ hmem)) c hc
  · rw [hnco, hlive, h.counted]
  · rw [hrunning]
    simp only [pending, pairs, h.history, h.on_cpu]

/-- What a yield and a return have in common: the running coroutine leaves the
stack with status `st`, the coroutine below it runs again, the rest is as it was. -/
theorem leave_inv {m m' : Machine} {next : Nat} {rest : List Nat} {pc left : Cort}
    (h : Inv m (next :: rest)) (hpc : m.sch.cort next = some pc)
    (hrunning : m'.sch.running = next) (hexec : m'.exec = next)
    (hget : ∀ j, m'.sch.cort j = if j = m.sch.running then some left
      else if j = next then some { pc with status := .running } else m.sch.cort j)
    (hleft : left.status = .dead ∨ (left.status = .suspend ∧ left.ctx = .saved m.sch.running))
    (hcount : m'.sch.nco = liveCount m'.sch)
    (htrace : m'.trace = .leave m.exec :: m.trace) : Inv m' rest := by
  have hdistinct := List.nodup_cons.mp h.distinct
  have hne : next ≠ m.sch.running := fun he => hdistinct.1 (by simp [he])
  have hrest : ∀ j ∈ rest, m'.sch.cort j = m.sch.cort j := by
    intro j hj
    have hj1 : j ≠ m.sch.running :=
      fun he => hdistinct.1 (List.mem_cons_of_mem _ (he ▸ hj))
    have hj2 : j ≠ next := fun he => (List.nodup_cons.mp hdistinct.2).1 (he ▸ hj)
    rw [hget, if_neg hj1, if_neg hj2]
  have htop : m'.sch.cort next = some { pc with status := .running } := by
    rw [hget, if_neg hne, if_pos rfl]
  refine ⟨by rw [hexec, hrunning], ?_, ?_, ?_, ?_, ?_, hcount, ?_⟩
  · rw [hrunning]
    refine h.linked.2.2.congr (fun j hj c hc => ?_)
    rcases List.mem_cons.mp hj with rfl | hj
    · rw [hpc] at hc
      cases hc
      exact ⟨_, htop, rfl⟩
    · exact ⟨c, by rw [hrest j hj, hc], rfl⟩
  · rw [hrunning]
    exact hdistinct.2
  · exact ⟨_, by rw [hrunning]; exact htop, rfl⟩
  · intro j hj
    rw [hrest j hj]
    exact h.waiting j (List.mem_cons_of_mem _ hj)
  · intro j hj c hc
    rw [hrunning] at hj
    have hj2 : j ≠ next := fun he => hj (by simp [he])
    by_cases hj1 : j = m.sch.running
    · rw [hget, if_pos hj1] at hc
      cases hc
      subst hj1
      rcases hleft with hdead | ⟨hsus, hctx⟩
      · exact Or.inl hdead
      · exact Or.inr ⟨hsus, Or.inr hctx⟩
    · rw [hget, if_neg hj1, if_neg hj2] at hc
      refine h.parked j (fun hmem => ?_) c hc
      rcases List.mem_cons.mp hmem with he | hmem
      · exact hj1 he
      · exact hj hmem
  · rw [htrace, hrunning]
    simp only [pending, h.history, pairs, List.tail_cons]

theorem yield_inv {m : Machine} {next : Nat} {rest : List Nat} (h : Inv m (next :: rest)) :
    ∃ m', cortYield m = .ok (true, m') ∧ m'.exec = next ∧ Inv m' rest := by
  obtain ⟨co, hco, hrun⟩ := h.current
  obtain ⟨hmain, ⟨c, hc, hp⟩, -⟩ := h.linked
  rw [hco] at hc
  cases hc
  obtain ⟨pc, hpc, hst, hctx⟩ := h.waiting next (by simp)
  subst hp
  obtain ⟨S', heq, hrunning, hnco, -, hlive, hget⟩ :=
    cortYield_effects hmain hco hrun hpc hst hctx
  exact ⟨_, heq, rfl, leave_inv h hpc hrunning rfl hget (Or.inr ⟨rfl, by rw [h.on_cpu]⟩)
    (by rw [hnco, hlive, h.counted]) rfl⟩

theorem ret_inv {m : Machine} {next : Nat} {rest : List Nat} (h : Inv m (next :: rest)) :
    ∃ m', cofuncReturn m m.exec = .ok m' ∧ m'.exec = next ∧ Inv m' rest := by
  obtain ⟨co, hco, hrun⟩ := h.current
  obtain ⟨-, ⟨c, hc, hp⟩, -⟩ := h.linked
  rw [hco] at hc
  cases hc
  obtain ⟨pc, hpc, hst, hctx⟩ := h.waiting next (by simp)
  subst hp
  obtain ⟨S', heq, hrunning, hnco, -, hlive, hget⟩ :=
    cofuncReturn_effects (by rw [h.on_cpu]; exact hco) hrun hpc hst hctx
  rw [h.on_cpu] at hget
  refine ⟨_, heq, rfl, leave_inv h hpc hrunning rfl hget (Or.inl rfl) ?_ rfl⟩
  dsimp only
  rw [hnco, h.counted]
  omega

/-! ## What a reachable state satisfies -/

/-- One coroutine runs, and those it was resumed through wait for it. `chain` is the resume
stack below the running coroutine, found by following `pco`. -/
structure Disciplined (S : Cosched) : Prop where
  one_running : ∀ id, (∃ c, S.cort id = some c ∧ c.status = .running) ↔ id = S.running
  chain : ∃ below, Linked S (S.running :: below) ∧ (S.running :: below).Nodup ∧
    (∀ id ∈ below, ∃ c, S.cort id = some c ∧ c.status = .normal) ∧
    ∀ id c, S.cort id = some c → id ∉ S.running :: below →
      c.status = .dead ∨ c.status = .suspend
  main_alive : ∃ c, S.cort mainCoId = some c ∧ (c.status = .running ∨ c.status = .normal)
  counted : S.nco = liveCount S

theorem Inv.disciplined {m : Machine} {below : List Nat} (h : Inv m below) :
    Disciplined m.sch where
  one_running := by
    intro id
    constructor
    · rintro ⟨c, hc, hs⟩
      by_contra hne
      by_cases hmem : id ∈ below
      · obtain ⟨c', hc', hs', -⟩ := h.waiting id hmem
        rw [hc] at hc'
        cases hc'
        rw [hs] at hs'
        cases hs'
      · rcases h.parked id (by simp [hne, hmem]) c hc with hs' | ⟨hs', -⟩ <;>
          · rw [hs] at hs'
            cases hs'
    · rintro rfl
      exact h.current
  chain := by
    refine ⟨below, h.linked, h.distinct, fun id hid => ?_, fun id c hc hid => ?_⟩
    · obtain ⟨c, hc, hs, -⟩ := h.waiting id hid
      exact ⟨c, hc, hs⟩
    · rcases h.parked id hid c hc with hs | ⟨hs, -⟩
      · exact Or.inl hs
      · exact Or.inr hs
  main_alive := by
    rcases List.mem_cons.mp h.linked.main_mem with hmain | hmain
    · obtain ⟨c, hc, hs⟩ := h.current
      exact ⟨c, by rw [hmain]; exact hc, Or.inl hs⟩
    · obtain ⟨c, hc, hs, -⟩ := h.waiting _ hmain
      exact ⟨c, hc, Or.inr hs⟩
  counted := h.counted

/-- A resume within the array either is refused and leaves the machine alone, or
pushes the target. -/
theorem resume_cases {m : Machine} {below : List Nat} (h : Inv m below) {id : Nat}
    (hid : id < m.sch.cap) :
    cortResume m id = .ok (false, m) ∨
    ∃ m', cortResume m id = .ok (true, m') ∧ m'.exec = id ∧
      Inv m' (m.sch.running :: below) := by
  obtain ⟨cur, hcur, -⟩ := h.current
  cases hco : m.sch.cort id with
  | none => exact Or.inl (by simp [cortResume, hid, hco])
  | some co =>
      by_cases hst : co.status = .suspend
      · exact Or.inr (resume_inv h hco hst)
      · refine Or.inl ?_
        simp only [cortResume, if_pos hid, hco, hcur]

theorem yield_cases {m : Machine} {below : List Nat} (h : Inv m below) :
    cortYield m = .ok (false, m) ∨
    ∃ next rest m', below = next :: rest ∧ cortYield m = .ok (true, m') ∧ m'.exec = next ∧
      Inv m' rest := by
  by_cases hm : m.sch.running = mainCoId
  · exact Or.inl (by simp [cortYield, hm])
  · obtain ⟨next, rest, rfl⟩ := h.below_of_not_main hm
    obtain ⟨m', heq, hexec, hinv⟩ := yield_inv h
    exact Or.inr ⟨next, rest, m', rfl, heq, hexec, hinv⟩

theorem step_inv {m m' : Machine} {op : Op} {below : List Nat} (h : Inv m below)
    (taken : step m op = .ok m') : ∃ below', Inv m' below' := by
  cases op with
  | new func ud =>
      obtain ⟨m₁, heq, hinv⟩ := new_inv h func ud
      rw [heq] at taken
      cases taken
      exact ⟨_, hinv⟩
  | resume id =>
      by_cases hid : id < m.sch.cap
      · rcases resume_cases h hid with heq | ⟨m₁, heq, -, hinv⟩
        · simp only [step, heq, ok_bind, Except.ok.injEq] at taken
          exact ⟨below, taken ▸ h⟩
        · simp only [step, heq, ok_bind, Except.ok.injEq] at taken
          exact ⟨_, taken ▸ hinv⟩
      · simp [step, cortResume, hid, bind, Except.bind] at taken
  | yield =>
      rcases yield_cases h with heq | ⟨next, rest, m₁, -, heq, -, hinv⟩
      · simp only [step, heq, ok_bind, Except.ok.injEq] at taken
        exact ⟨below, taken ▸ h⟩
      · simp only [step, heq, ok_bind, Except.ok.injEq] at taken
        exact ⟨_, taken ▸ hinv⟩
  | ret =>
      simp only [step] at taken
      split at taken
      · cases taken
      · next hm =>
        obtain ⟨next, rest, rfl⟩ := h.below_of_not_main (by rw [← h.on_cpu]; exact hm)
        obtain ⟨m₁, heq, -, hinv⟩ := ret_inv h
        rw [heq] at taken
        cases taken
        exact ⟨_, hinv⟩

/-- Where the processor goes from one state: refused calls change nothing, and a
yield or a return hands it to the coroutine whose resume is the last one not
answered yet. -/
structure Transfers (m : Machine) : Prop where
  new : ∀ func ud, ∃ m', step m (.new func ud) = .ok m'
  resume : ∀ id, id < m.sch.cap → cortResume m id = .ok (false, m) ∨
    ∃ m', cortResume m id = .ok (true, m') ∧ m'.exec = id
  yield : cortYield m = .ok (false, m) ∨
    ∃ resumer before m', pending m.trace = (resumer, m.exec) :: before ∧
      cortYield m = .ok (true, m') ∧ m'.exec = resumer
  ret : m.exec ≠ mainCoId → ∃ resumer before m',
    pending m.trace = (resumer, m.exec) :: before ∧
      step m .ret = .ok m' ∧ m'.exec = resumer

theorem Inv.transfers {m : Machine} {below : List Nat} (h : Inv m below) : Transfers m where
  new := fun func ud =>
    let ⟨m', heq, _⟩ := new_inv h func ud
    ⟨m', heq⟩
  resume := by
    intro id hid
    rcases resume_cases h hid with heq | ⟨m', heq, hexec, -⟩
    · exact Or.inl heq
    · exact Or.inr ⟨m', heq, hexec⟩
  yield := by
    rcases yield_cases h with heq | ⟨next, rest, m', rfl, heq, hexec, -⟩
    · exact Or.inl heq
    · refine Or.inr ⟨next, pairs (next :: rest), m', ?_, heq, hexec⟩
      rw [h.history, h.on_cpu]
      rfl
  ret := by
    intro hm
    obtain ⟨next, rest, rfl⟩ := h.below_of_not_main (by rw [← h.on_cpu]; exact hm)
    obtain ⟨m', heq, hexec, -⟩ := ret_inv h
    refine ⟨next, pairs (next :: rest), m', ?_, by simp only [step, if_neg hm, heq], hexec⟩
    rw [h.history, h.on_cpu]
    rfl

/-- Every state reached from `cort_open` by creations, resumes, yields and
returns, in any order and nesting. -/
theorem scheduler_discipline (ops : List Op) (m : Machine)
    (reached : (do let start ← openMachine; Runs.run step start ops) = .ok m) :
    Disciplined m.sch ∧ m.exec = m.sch.running ∧ Transfers m := by
  rw [openMachine_eq, ok_bind] at reached
  have kept : ∀ s op s', (∃ below, Inv s below) → step s op = .ok s' → ∃ below, Inv s' below :=
    fun s op s' ⟨below, hs⟩ taken => step_inv hs taken
  obtain ⟨below, h⟩ := Runs.invariant kept ops openState m ⟨[], openState_inv⟩ reached
  exact ⟨h.disciplined, h.on_cpu, h.transfers⟩

/-- Nested resumes, a yield through two levels, a death and a recycled slot. -/
def nestedOps : List Op :=
  [.new 5 0, .resume 1, .new 6 0, .resume 2, .yield, .ret, .new 7 0, .resume 2, .resume 2]

set_option maxRecDepth 8000 in
theorem scheduler_discipline_nested :
    ∃ m, (do let start ← openMachine; Runs.run step start nestedOps) = .ok m ∧
      m.sch.running = 2 ∧ Disciplined m.sch ∧ m.exec = m.sch.running ∧ Transfers m := by
  obtain ⟨m, hm, hrun⟩ : ∃ m, (do let start ← openMachine; Runs.run step start nestedOps) = .ok m ∧
      m.sch.running = 2 := ⟨_, rfl, rfl⟩
  exact ⟨m, hm, hrun, scheduler_discipline nestedOps m hm⟩

end Colinlib.Guarantees.SchedulerDiscipline
