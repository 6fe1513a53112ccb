import Colinlib.Theory.Runs

/-!
# Programs that call back into their caller

Library code that invokes a callback hands control to code it knows nothing
about, which may call the library again before it returns. A program here is a
state transformer that can stop at such a call and be continued from whatever
state the callback leaves. The machine keeps the suspended programs on a stack;
the environment starts new programs on top of it or lets the innermost callback
return. Each suspension carries a tag that says which callback is running.

The rules at the end are for programs that call back at most once before they
return: what holds in every state of every run follows from what such a program
does up to its callback and what it does afterwards. Nothing here names a
particular program.
-/
namespace Colinlib.Theory.Callbacks

variable {W C E α β : Type}

/-- What a stretch of library code comes to: it returns, it stops for good, or it
waits for a callback. -/
inductive Res (W C E α : Type) where
  | ret (a : α) (w : W)
  | stop (e : E)
  | call (c : C) (w : W) (resume : W → Res W C E α)

def Res.bind : Res W C E α → (α → W → Res W C E β) → Res W C E β
  | .ret a w, next => next a w
  | .stop e, _ => .stop e
  | .call c w resume, next => .call c w fun w' => (resume w').bind next

def Prog (W C E α : Type) := W → Res W C E α

instance : Monad (Prog W C E) where
  pure a := fun w => .ret a w
  bind m next := fun w => (m w).bind next

namespace Prog

def read (view : W → α) : Prog W C E α := fun w => .ret (view w) w

def modify (update : W → W) : Prog W C E Unit := fun w => .ret () (update w)

def attempt (f : W → Except E (α × W)) : Prog W C E α := fun w =>
  match f w with
  | .ok (a, w') => .ret a w'
  | .error e => .stop e

/-- Hand control to the callback `c`. -/
def callback (c : C) : Prog W C E Unit := fun w => .call c w fun w' => .ret () w'

end Prog

@[simp] theorem bind_apply (m : Prog W C E α) (next : α → Prog W C E β) (w : W) :
    (m >>= next) w = (m w).bind next := rfl

@[simp] theorem pure_apply (a : α) (w : W) : (pure a : Prog W C E α) w = .ret a w := rfl

@[simp] theorem read_apply (view : W → α) (w : W) :
    (Prog.read view : Prog W C E α) w = .ret (view w) w := rfl

@[simp] theorem modify_apply (update : W → W) (w : W) :
    (Prog.modify update : Prog W C E Unit) w = .ret () (update w) := rfl

@[simp] theorem ret_bind (a : α) (w : W) (next : α → Prog W C E β) :
    (Res.ret a w : Res W C E α).bind next = next a w := rfl

/-- An atomic program stops or returns. -/
theorem attempt_cases (f : W → Except E (α × W)) (w : W) :
    (∃ e, (Prog.attempt f : Prog W C E α) w = .stop e) ∨
      ∃ a w', (Prog.attempt f : Prog W C E α) w = .ret a w' := by
  unfold Prog.attempt
  split
  · exact .inr ⟨_, _, rfl⟩
  · exact .inl ⟨_, rfl⟩

/-! ## What a program promises -/

/-- The program calls nothing back, and ends in `Q` if it does not stop. -/
def Ends (Q : α → W → Prop) : Res W C E α → Prop
  | .ret a w => Q a w
  | .stop _ => True
  | .call .. => False

/-- The program ends in `Q` without a callback, or reaches one in a state `enters`
admits; from whatever state `back` admits the callback returns in, it then ends in
`R`. -/
def Once (enters : C → W → Prop) (back : W → Prop) (Q : α → W → Prop)
    (R : C → W → α → W → Prop) : Res W C E α → Prop
  | .ret a w => Q a w
  | .stop _ => True
  | .call c w resume => enters c w ∧ ∀ w', back w' → Ends (R c w') (resume w')

section Rules
variable {enters : C → W → Prop} {back : W → Prop}

theorem Ends.mono {Q R : α → W → Prop} {m : Res W C E α} (h : Ends Q m)
    (weaken : ∀ a w, Q a w → R a w) : Ends R m := by
  cases m with
  | ret a w => exact weaken a w h
  | stop e => trivial
  | call c w resume => exact h.elim

theorem Ends.bind {Q : α → W → Prop} {R : β → W → Prop} {m : Res W C E α}
    {next : α → Prog W C E β} (h : Ends Q m) (rest : ∀ a w, Q a w → Ends R (next a w)) :
    Ends R (m.bind next) := by
  cases m with
  | ret a w => exact rest a w h
  | stop e => trivial
  | call c w resume => exact h.elim

theorem Ends.seq {Q : α → W → Prop} {R : β → W → Prop} {m : Prog W C E α}
    {next : α → Prog W C E β} {w : W} (h : Ends Q (m w))
    (rest : ∀ a w', Q a w' → Ends R (next a w')) : Ends R ((m >>= next) w) :=
  Ends.bind h rest

theorem Ends.attempt {Q : α → W → Prop} {f : W → Except E (α × W)} {w : W}
    (ok : ∀ a w', f w = .ok (a, w') → Q a w') :
    Ends Q (Prog.attempt (C := C) f w) := by
  unfold Prog.attempt
  cases hf : f w with
  | error e => trivial
  | ok p => exact ok p.1 p.2 hf

/-- An atomic program reaches what it returns. -/
theorem Ends.atomic {m : Prog W C E α} {f : W → Except E (α × W)} (is : m = Prog.attempt f)
    (w : W) : Ends (fun a w' => m w = .ret a w') (m w) := by
  subst is
  apply Ends.attempt
  intro a w' ran
  simp only [Prog.attempt, ran]

variable {Q : α → W → Prop} {R : C → W → α → W → Prop}

theorem Once.of_ends {m : Res W C E α} (h : Ends Q m) : Once enters back Q R m := by
  cases m with
  | ret a w => exact h
  | stop e => trivial
  | call c w resume => exact h.elim

theorem Once.mono {Q' : α → W → Prop} {R' : C → W → α → W → Prop} {m : Res W C E α}
    (h : Once enters back Q R m) (direct : ∀ a w, Q a w → Q' a w)
    (after : ∀ c w' a w, R c w' a w → R' c w' a w) : Once enters back Q' R' m := by
  cases m with
  | ret a w => exact direct a w h
  | stop e => trivial
  | call c w resume => exact ⟨h.1, fun w' hw => (h.2 w' hw).mono (after c w')⟩

/-- What follows a callback must end without another one. -/
theorem Once.bind {Q' : β → W → Prop} {R' : C → W → β → W → Prop} {m : Res W C E α}
    {next : α → Prog W C E β} (h : Once enters back Q R m)
    (direct : ∀ a w, Q a w → Once enters back Q' R' (next a w))
    (after : ∀ c w' a w, R c w' a w → Ends (R' c w') (next a w)) :
    Once enters back Q' R' (m.bind next) := by
  cases m with
  | ret a w => exact direct a w h
  | stop e => trivial
  | call c w resume => exact ⟨h.1, fun w' hw => (h.2 w' hw).bind (after c w')⟩

/-- A program that calls nothing back comes first. -/
theorem Once.seq {P : β → W → Prop} {m : Prog W C E β} {next : β → Prog W C E α} {w : W}
    (h : Ends P (m w)) (rest : ∀ b w', P b w' → Once enters back Q R (next b w')) :
    Once enters back Q R ((m >>= next) w) := by
  have first : Once enters back P (fun _ _ _ _ => False) (m w) := Once.of_ends h
  exact Once.bind first rest (fun _ _ _ _ absurd => absurd.elim)

end Rules

/-! ## The machine -/

/-- The programs the environment may start, and the inputs it supplies to each
stretch of library code. -/
structure System (W C E A T : Type) where
  load : T → W → W
  enabled : A → List C → W → Bool
  program : A → Prog W C E Unit
  refused : E

/-- A state of the machine: the suspended programs, innermost first. -/
structure Conf (W C E : Type) where
  world : W
  stack : List (C × (W → Res W C E Unit))

def Conf.tags (s : Conf W C E) : List C := s.stack.map Prod.fst

/-- Start a program, or return from the innermost callback. -/
inductive Move (A T : Type) where
  | start (a : A) (inputs : T)
  | back (inputs : T)

/-- Run a stretch of library code on top of `stack`. -/
def enter (stack : List (C × (W → Res W C E Unit))) : Res W C E Unit → Except E (Conf W C E)
  | .ret _ w => .ok ⟨w, stack⟩
  | .stop e => .error e
  | .call c w resume => .ok ⟨w, (c, resume) :: stack⟩

variable {A T : Type}

def step (sys : System W C E A T) (s : Conf W C E) : Move A T → Except E (Conf W C E)
  | .start a inputs =>
    if sys.enabled a s.tags s.world then enter s.stack (sys.program a (sys.load inputs s.world))
    else .error sys.refused
  | .back inputs =>
    match s.stack with
    | [] => .error sys.refused
    | (_, resume) :: rest => enter rest (resume (sys.load inputs s.world))

/-! ## What one move does, and what all runs keep -/

section Runs
variable (sys : System W C E A T) (back : W → Prop) (reaches : A → W → W → Prop)
variable (calls : A → W → C → W → Prop) (resumed : C → W → W → Prop)

/-- Every suspended program ends as `resumed` says once its callback returns. -/
def Waiting (s : Conf W C E) : Prop :=
  ∀ frame ∈ s.stack, ∀ w, back w → Ends (fun _ w' => resumed frame.1 w w') (frame.2 w)

/-- The programs of the system, each in terms of the world it is started in. -/
def Performs : Prop :=
  ∀ a tags w inputs, back w → sys.enabled a tags w = true →
    Once (fun c w' => calls a (sys.load inputs w) c w') back
      (fun _ w' => reaches a (sys.load inputs w) w') (fun c w' _ w'' => resumed c w' w'')
      (sys.program a (sys.load inputs w))

/-- The three ways in which a move changes the world and the callbacks that run. -/
inductive Moved (tags : List C) (w : W) : Move A T → List C → W → Prop
  | direct {a inputs w'} (enabled : sys.enabled a tags w = true)
      (end' : reaches a (sys.load inputs w) w') : Moved tags w (.start a inputs) tags w'
  | calls {a inputs c w'} (enabled : sys.enabled a tags w = true)
      (call : calls a (sys.load inputs w) c w') : Moved tags w (.start a inputs) (c :: tags) w'
  | returns {c rest inputs w'} (top : tags = c :: rest)
      (end' : resumed c (sys.load inputs w) w') : Moved tags w (.back inputs) rest w'

variable {sys back reaches calls resumed}

theorem step_moved (performs : Performs sys back reaches calls resumed)
    (load : ∀ inputs w, back w → back (sys.load inputs w)) {s s' : Conf W C E} {m : Move A T}
    (now : back s.world) (waiting : Waiting back resumed s) (taken : step sys s m = .ok s') :
    Moved sys reaches calls resumed s.tags s.world m s'.tags s'.world ∧
      Waiting back resumed s' := by
  cases m with
  | start a inputs =>
      simp only [step] at taken
      split at taken
      · next enabled =>
        have once := performs a s.tags s.world inputs now enabled
        cases hm : sys.program a (sys.load inputs s.world) with
        | ret u w =>
            rw [hm] at taken once
            cases taken
            exact ⟨.direct enabled once, waiting⟩
        | stop e =>
            rw [hm] at taken
            cases taken
        | call c w resume =>
            rw [hm] at taken once
            cases taken
            refine ⟨.calls enabled once.1, fun frame hf => ?_⟩
            cases hf with
            | head => exact once.2
            | tail _ hmem => exact waiting frame hmem
      · cases taken
  | back inputs =>
      obtain ⟨w, stack⟩ := s
      cases stack with
      | nil => cases taken
      | cons frame rest =>
          have ends := waiting frame List.mem_cons_self _ (load inputs w now)
          have below : Waiting back resumed (⟨w, rest⟩ : Conf W C E) :=
            fun f hf => waiting f (List.mem_cons_of_mem _ hf)
          simp only [step] at taken
          cases hm : frame.2 (sys.load inputs w) with
          | ret u w' =>
              rw [hm] at taken ends
              cases taken
              exact ⟨.returns rfl ends, below⟩
          | stop e =>
              rw [hm] at taken
              cases taken
          | call c w' resume =>
              rw [hm] at ends
              exact ends.elim

/-- A property of the world and the running callbacks that every admitted move
keeps holds in every state an admitted run reaches. -/
theorem run_invariant (performs : Performs sys back reaches calls resumed)
    (load : ∀ inputs w, back w → back (sys.load inputs w)) {G : List C → W → Prop}
    (sound : ∀ tags w, G tags w → back w) {ok : List C → W → Move A T → Prop}
    (moved : ∀ tags w m tags' w', G tags w → ok tags w m →
      Moved sys reaches calls resumed tags w m tags' w' → G tags' w')
    (moves : List (Move A T)) (s t : Conf W C E) (waiting : Waiting back resumed s)
    (holds : G s.tags s.world)
    (admitted : Runs.Along (step sys) (fun s m => ok s.tags s.world m) s moves)
    (reached : Runs.run (step sys) s moves = .ok t) :
    G t.tags t.world ∧ Waiting back resumed t := by
  have preserved : ∀ (s : Conf W C E) m s', (G s.tags s.world ∧ Waiting back resumed s) →
      ok s.tags s.world m → step sys s m = .ok s' →
      G s'.tags s'.world ∧ Waiting back resumed s' := by
    intro s m s' held hok taken
    have stepped := step_moved performs load (sound _ _ held.1) held.2 taken
    exact ⟨moved _ _ m _ _ held.1 hok stepped.1, stepped.2⟩
  exact Runs.invariant_along preserved moves s t ⟨holds, waiting⟩ admitted reached

theorem waiting_rest (w : W) : Waiting back resumed (⟨w, []⟩ : Conf W C E) :=
  fun _ hf => by cases hf

end Runs

end Colinlib.Theory.Callbacks
