import Mathlib.Data.List.Basic

/-!
# Runs of a partial deterministic machine

A machine is a step function that may fail. A run is a list of actions; it is
defined while every step is. `Along` restricts a run to steps that meet a
condition on the state before the step and the action taken.
-/
namespace Colinlib.Theory.Runs

variable {S A E : Type}

def run (step : S → A → Except E S) : S → List A → Except E S
  | s, [] => .ok s
  | s, a :: rest =>
    match step s a with
    | .error e => .error e
    | .ok s' => run step s' rest

/-- Every step the run takes satisfies `ok`. -/
def Along (step : S → A → Except E S) (ok : S → A → Prop) : S → List A → Prop
  | _, [] => True
  | s, a :: rest => ok s a ∧ ∀ s', step s a = .ok s' → Along step ok s' rest

/-- `Along` can be checked by running. -/
instance decidableAlong (step : S → A → Except E S) (ok : S → A → Prop)
    [∀ s a, Decidable (ok s a)] : (s : S) → (actions : List A) → Decidable (Along step ok s actions)
  | _, [] => .isTrue trivial
  | s, a :: rest =>
    match h : step s a with
    | .error e => decidable_of_iff (ok s a) ⟨fun hok => ⟨hok, fun s' hs => by cases h ▸ hs⟩, And.left⟩
    | .ok s' =>
      have := decidableAlong step ok s' rest
      decidable_of_iff (ok s a ∧ Along step ok s' rest)
        ⟨fun both => ⟨both.1, fun _ hs => (Except.ok.inj (h ▸ hs)) ▸ both.2⟩,
          fun along => ⟨along.1, along.2 s' h⟩⟩

theorem run_cons {step : S → A → Except E S} {s t : S} {a : A} {rest : List A}
    (h : run step s (a :: rest) = .ok t) :
    ∃ s', step s a = .ok s' ∧ run step s' rest = .ok t := by
  simp only [run] at h
  split at h
  · cases h
  · next s' hs => exact ⟨s', hs, h⟩

/-- A run whose final state was inspected did end in a state. -/
theorem reached_of_map {β : Type} {x : Except E S} {view : S → β} {b : β}
    (h : x.map view = .ok b) : ∃ s, x = .ok s ∧ view s = b := by
  cases x with
  | error e => cases h
  | ok s => exact ⟨s, rfl, Except.ok.inj h⟩

/-- The induction over runs, packaged once: what every admitted step preserves
holds in the state every admitted run reaches. -/
theorem invariant_along {step : S → A → Except E S} {ok : S → A → Prop} {Inv : S → Prop}
    (preserved : ∀ s a s', Inv s → ok s a → step s a = .ok s' → Inv s')
    (actions : List A) (s t : S) (start : Inv s) (admitted : Along step ok s actions)
    (reached : run step s actions = .ok t) : Inv t := by
  induction actions generalizing s with
  | nil =>
      cases reached
      exact start
  | cons a rest ih =>
      obtain ⟨s', hs, hrest⟩ := run_cons reached
      exact ih s' (preserved s a s' start admitted.1 hs) (admitted.2 s' hs) hrest

theorem Along.mono {step : S → A → Except E S} {ok ok' : S → A → Prop}
    (weaker : ∀ s a, ok s a → ok' s a) {s : S} {actions : List A}
    (h : Along step ok s actions) : Along step ok' s actions := by
  induction actions generalizing s with
  | nil => trivial
  | cons a rest ih => exact ⟨weaker s a h.1, fun s' taken => ih (h.2 s' taken)⟩

theorem along_of_forall (step : S → A → Except E S) {ok : A → Prop} {actions : List A}
    (h : ∀ a ∈ actions, ok a) (s : S) : Along step (fun _ a => ok a) s actions := by
  induction actions generalizing s with
  | nil => trivial
  | cons a rest ih =>
      exact ⟨h a List.mem_cons_self, fun s' _ => ih (fun b hb => h b (List.mem_cons_of_mem _ hb)) s'⟩

theorem run_append {step : S → A → Except E S} {s s' : S} {before after : List A}
    (first : run step s before = .ok s') : run step s (before ++ after) = run step s' after := by
  induction before generalizing s with
  | nil =>
      cases first
      rfl
  | cons a rest ih =>
      obtain ⟨s₁, taken, later⟩ := run_cons first
      simp only [List.cons_append, run, taken]
      exact ih later

/-- What is admitted as a whole is admitted from its start. -/
theorem Along.start {step : S → A → Except E S} {ok : S → A → Prop} {s : S}
    {before after : List A} (whole : Along step ok s (before ++ after)) :
    Along step ok s before := by
  induction before generalizing s with
  | nil => trivial
  | cons a rest ih => exact ⟨whole.1, fun s' taken => ih (whole.2 s' taken)⟩

/-- What is admitted as a whole is admitted part by part. -/
theorem Along.split {step : S → A → Except E S} {ok : S → A → Prop} {s s' : S}
    {before after : List A} (whole : Along step ok s (before ++ after))
    (first : run step s before = .ok s') : Along step ok s before ∧ Along step ok s' after := by
  refine ⟨whole.start, ?_⟩
  induction before generalizing s with
  | nil =>
      cases first
      exact whole
  | cons a rest ih =>
      obtain ⟨s₁, taken, later⟩ := run_cons first
      exact ih (whole.2 s₁ taken) later

theorem Along.and {step : S → A → Except E S} {ok ok' : S → A → Prop} {s : S}
    {actions : List A} (h : Along step ok s actions) (h' : Along step ok' s actions) :
    Along step (fun s a => ok s a ∧ ok' s a) s actions := by
  induction actions generalizing s with
  | nil => trivial
  | cons a rest ih =>
      exact ⟨⟨h.1, h'.1⟩, fun s' taken => ih (h.2 s' taken) (h'.2 s' taken)⟩

theorem along_true (step : S → A → Except E S) (actions : List A) (s : S) :
    Along step (fun _ _ => True) s actions := by
  induction actions generalizing s with
  | nil => trivial
  | cons a rest ih => exact ⟨trivial, fun s' _ => ih s'⟩

theorem invariant {step : S → A → Except E S} {Inv : S → Prop}
    (preserved : ∀ s a s', Inv s → step s a = .ok s' → Inv s')
    (actions : List A) (s t : S) (start : Inv s)
    (reached : run step s actions = .ok t) : Inv t :=
  invariant_along (fun s a s' hs _ => preserved s a s' hs) actions s t start
    (along_true step actions s) reached

/-- What the steps of a run are seen to do, in order. -/
def observed {B : Type} (step : S → A → Except E S) (sees : S → A → List B) : S → List A → List B
  | _, [] => []
  | s, a :: rest =>
    sees s a ++ match step s a with
      | .error _ => []
      | .ok s' => observed step sees s' rest

/-- Where each step adds to a view what it is seen to do, so does a run. -/
theorem observed_view {B C : Type} {step : S → A → Except E S} (Inv : S → Prop)
    (sees : S → A → List B) (view : S → List C) (adds : B → List C)
    (each : ∀ s a s', Inv s → step s a = .ok s' →
      Inv s' ∧ view s' = view s ++ (sees s a).flatMap adds)
    (actions : List A) (s t : S) (start : Inv s) (reached : run step s actions = .ok t) :
    view t = view s ++ (observed step sees s actions).flatMap adds := by
  induction actions generalizing s with
  | nil =>
      cases reached
      rw [observed, List.flatMap_nil, List.append_nil]
  | cons a rest ih =>
      obtain ⟨s', taken, later⟩ := run_cons reached
      obtain ⟨inv, added⟩ := each s a s' start taken
      rw [ih s' inv later, added, observed, taken, List.flatMap_append, List.append_assoc]

/-- An invariant of a state and of what has been observed on the way to it. -/
theorem observed_invariant {B : Type} {step : S → A → Except E S} {sees : S → A → List B}
    {Inv : List B → S → Prop}
    (preserved : ∀ seen s a s', Inv seen s → step s a = .ok s' → Inv (seen ++ sees s a) s')
    (actions : List A) (seen : List B) (s t : S) (start : Inv seen s)
    (reached : run step s actions = .ok t) : Inv (seen ++ observed step sees s actions) t := by
  induction actions generalizing seen s with
  | nil =>
      cases reached
      rwa [observed, List.append_nil]
  | cons a rest ih =>
      obtain ⟨s', taken, later⟩ := run_cons reached
      rw [observed, taken, ← List.append_assoc]
      exact ih _ s' (preserved seen s a s' start taken) later

/-- What holds of all that is observed holds of what each step is seen to do. -/
theorem along_observed {B : Type} {step : S → A → Except E S} {sees : S → A → List B}
    {fits : B → Prop} {actions : List A} {s : S}
    (all : ∀ b ∈ observed step sees s actions, fits b) :
    Along step (fun s a => ∀ b ∈ sees s a, fits b) s actions := by
  induction actions generalizing s with
  | nil => trivial
  | cons a rest ih =>
      refine ⟨fun b hb => all b (List.mem_append_left _ hb), fun s' taken => ih fun b hb => ?_⟩
      refine all b (List.mem_append_right _ ?_)
      rw [taken]
      exact hb

/-- How a run of calls halts: a caller breaks a rule of the interface, or a call has a fault. -/
inductive Halt (F : Type) where
  | contract
  | fault (f : F)
  deriving DecidableEq, Repr

/-- The caller's doing. -/
def Halt.ByCaller {F : Type} : Halt F → Prop
  | .contract => True
  | .fault _ => False

/-- A call as part of a run. -/
def lift {F β : Type} (x : Except F β) : Except (Halt F) β := x.mapError .fault

theorem lift_ok {F β : Type} {x : Except F β} {b : β} (h : lift x = .ok b) : x = .ok b := by
  cases x with
  | error f => cases h
  | ok b' =>
      cases h
      rfl

/-- A computation returns a state in `Q`, or stops in a way `stop` admits. -/
def Outcome (stop : E → Prop) (Q : S → Prop) : Except E S → Prop
  | .ok s => Q s
  | .error e => stop e

theorem Outcome.mono {stop : E → Prop} {Q R : S → Prop} {x : Except E S}
    (h : Outcome stop Q x) (weaker : ∀ s, Q s → R s) : Outcome stop R x := by
  cases x with
  | error e => exact h
  | ok s => exact weaker s h

theorem Outcome.weaken {stop stop' : E → Prop} {Q : S → Prop} {x : Except E S}
    (h : Outcome stop Q x) (weaker : ∀ e, stop e → stop' e) : Outcome stop' Q x := by
  cases x with
  | error e => exact weaker e h
  | ok s => exact h

theorem Outcome.bind {T : Type} {stop : E → Prop} {Q : S → Prop} {R : T → Prop}
    {x : Except E S} {next : S → Except E T} (h : Outcome stop Q x)
    (step : ∀ s, Q s → Outcome stop R (next s)) : Outcome stop R (x >>= next) := by
  cases x with
  | error e => exact h
  | ok s => exact step s h

theorem Outcome.cons {stop : E → Prop} {Q R : S → Prop} {step : S → A → Except E S} {s : S}
    {a : A} {rest : List A} (h : Outcome stop Q (step s a))
    (after : ∀ s', Q s' → Outcome stop R (run step s' rest)) :
    Outcome stop R (run step s (a :: rest)) := by
  unfold run
  cases hs : step s a with
  | error e =>
      rw [hs] at h
      exact h
  | ok s' =>
      rw [hs] at h
      exact after s' h

/-- Where every step keeps `Q` or stops admissibly, so does every run. -/
theorem outcome_run (step : S → A → Except E S) (stop : E → Prop) (Q : S → Prop)
    (preserved : ∀ s a, Q s → Outcome stop Q (step s a)) (actions : List A) (s : S)
    (start : Q s) : Outcome stop Q (run step s actions) := by
  induction actions generalizing s with
  | nil => exact start
  | cons a rest ih => exact Outcome.cons (preserved s a start) ih

end Colinlib.Theory.Runs
