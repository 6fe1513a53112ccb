import Mathlib.Data.List.Basic
import Mathlib.Data.List.Nodup

/-!
# Lists whose entries have names

The abstract component a linked list stands for: entries are added at the ends or beside an
entry that is there, and taken out at the ends or by name. A caller may use any name that
no entry of the list has.
-/
namespace Colinlib.Theory.NamedList

variable {ν α : Type}

def names (xs : List (ν × α)) : List ν := xs.map Prod.fst

@[simp] theorem names_nil : names ([] : List (ν × α)) = [] := rfl

@[simp] theorem names_cons (y : ν × α) (xs : List (ν × α)) : names (y :: xs) = y.1 :: names xs := rfl

@[simp] theorem names_append (xs ys : List (ν × α)) : names (xs ++ ys) = names xs ++ names ys :=
  List.map_append

/-- A name of the list stands at a place of it. -/
theorem exists_split {xs : List (ν × α)} {n : ν} (h : n ∈ names xs) :
    ∃ l d r, xs = l ++ (n, d) :: r := by
  obtain ⟨⟨m, d⟩, there, rfl⟩ := List.mem_map.mp h
  obtain ⟨l, r, same⟩ := List.append_of_mem there
  exact ⟨l, d, r, same⟩

inductive Call (ν α : Type) where
  | pushHead (n : ν) (x : α)
  | pushTail (n : ν) (x : α)
  | pushAt (place n : ν) (x : α) (before : Bool)
  | popHead (keep : Bool)
  | popTail (keep : Bool)
  | popAt (place : Option ν) (keep : Bool)
  deriving DecidableEq, Repr

/-- A call that takes an entry out tells whether there was one, and shows it if asked to. -/
inductive Reply (α : Type) where
  | nothing
  | popped (done : Bool) (item : Option α)
  deriving DecidableEq, Repr

/-- An entry is there for the call to work on, and a new name is new. -/
def Admitted (xs : List (ν × α)) : Call ν α → Prop
  | .pushHead n _ | .pushTail n _ => n ∉ names xs
  | .pushAt place n _ _ => place ∈ names xs ∧ n ∉ names xs
  | .popHead _ | .popTail _ => True
  | .popAt place _ => ∀ n ∈ place, n ∈ names xs

section
variable [DecidableEq ν]

instance (xs : List (ν × α)) (call : Call ν α) : Decidable (Admitted xs call) := by
  cases call <;> unfold Admitted <;> infer_instance

def position (xs : List (ν × α)) (n : ν) : Nat := xs.findIdx (fun y => y.1 == n)

def erase (xs : List (ν × α)) (n : ν) : List (ν × α) := xs.eraseP (fun y => y.1 == n)

def shown (keep : Bool) (item : Option α) : Option α := if keep then item else none

def serve (xs : List (ν × α)) : Call ν α → Reply α × List (ν × α)
  | .pushHead n x => (.nothing, (n, x) :: xs)
  | .pushTail n x => (.nothing, xs ++ [(n, x)])
  | .pushAt place n x before =>
    (.nothing, xs.insertIdx (position xs place + if before then 0 else 1) (n, x))
  | .popHead keep => (.popped (!xs.isEmpty) (shown keep (xs.head?.map Prod.snd)), xs.tail)
  | .popTail keep => (.popped (!xs.isEmpty) (shown keep (xs.getLast?.map Prod.snd)), xs.dropLast)
  | .popAt none _ => (.popped false none, xs)
  | .popAt (some n) keep => (.popped true (shown keep (xs.lookup n)), erase xs n)

/-- The same for a sequence of calls. -/
def serveAll : List (ν × α) → List (Call ν α) → List (Reply α) × List (ν × α)
  | xs, [] => ([], xs)
  | xs, call :: calls =>
    let (out, ys) := serve xs call
    let (outs, zs) := serveAll ys calls
    (out :: outs, zs)

/-- Every call of the sequence is admitted when its turn comes. -/
def AdmittedAll : List (ν × α) → List (Call ν α) → Prop
  | _, [] => True
  | xs, call :: calls => Admitted xs call ∧ AdmittedAll (serve xs call).2 calls

instance decidableAdmittedAll : (xs : List (ν × α)) → (calls : List (Call ν α)) →
    Decidable (AdmittedAll xs calls)
  | _, [] => .isTrue trivial
  | xs, call :: calls =>
    have := decidableAdmittedAll (serve xs call).2 calls
    inferInstanceAs (Decidable (Admitted xs call ∧ AdmittedAll (serve xs call).2 calls))

variable {l r xs : List (ν × α)} {n : ν} {d x : α}

theorem insertIdx_gap {β : Type} (l r : List β) (x : β) :
    (l ++ r).insertIdx l.length x = l ++ x :: r := by
  induction l with
  | nil => exact List.insertIdx_zero
  | cons y rest ih => rw [List.cons_append, List.length_cons, List.insertIdx_succ_cons, ih,
      List.cons_append]

/-- The first entry of a name is the only one. -/
theorem names_split (once : (names (l ++ (n, d) :: r)).Nodup) : ∀ y ∈ l, ¬ (y.1 == n) = true := by
  intro y hy same
  rw [names_append, names_cons] at once
  refine (List.nodup_append.mp once).2.2 y.1 (List.mem_map_of_mem hy) n List.mem_cons_self ?_
  exact eq_of_beq same

theorem position_split (once : (names (l ++ (n, d) :: r)).Nodup) :
    position (l ++ (n, d) :: r) n = l.length := by
  have before : l.findIdx (fun y => y.1 == n) = l.length :=
    List.findIdx_eq_length_of_false fun y hy => by simpa using names_split once y hy
  rw [position, List.findIdx_append, before, if_neg (Nat.lt_irrefl _), List.findIdx_cons]
  simp

theorem erase_split (once : (names (l ++ (n, d) :: r)).Nodup) :
    erase (l ++ (n, d) :: r) n = l ++ r := by
  rw [erase, List.eraseP_append_right _ (names_split once), List.eraseP_cons_of_pos (by simp)]

theorem lookup_split (once : (names (l ++ (n, d) :: r)).Nodup) :
    (l ++ (n, d) :: r).lookup n = some d := by
  have before : l.lookup n = none := by
    refine List.lookup_eq_none_iff.mpr fun y hy => ?_
    have other : y.1 ≠ n := fun same => names_split once y hy (by simp [same])
    simpa using other.symm
  rw [List.lookup_append, before, Option.none_or, List.lookup_cons_self]

/-- An entry beside one that is there is put into the gap before or behind it. -/
theorem serve_pushAt (once : (names (l ++ (n, d) :: r)).Nodup) (m : ν) (x : α) (before : Bool) :
    serve (l ++ (n, d) :: r) (.pushAt n m x before) =
      (.nothing, if before then l ++ (m, x) :: (n, d) :: r else l ++ (n, d) :: (m, x) :: r) := by
  rw [serve, position_split once]
  cases before with
  | true => exact congrArg _ (insertIdx_gap l _ _)
  | false =>
      have behind := insertIdx_gap (l ++ [(n, d)]) r (m, x)
      simp only [List.append_assoc, List.singleton_append, List.length_append,
        List.length_singleton] at behind
      exact congrArg _ behind

theorem serve_popAt (once : (names (l ++ (n, d) :: r)).Nodup) (keep : Bool) :
    serve (l ++ (n, d) :: r) (.popAt (some n) keep) =
      (.popped true (shown keep (some d)), l ++ r) := by
  rw [serve, lookup_split once, erase_split once]

theorem serve_popTail (keep : Bool) :
    serve (l ++ [(n, d)]) (.popTail keep) = (.popped true (shown keep (some d)), l) := by
  simp [serve]

end

end Colinlib.Theory.NamedList
