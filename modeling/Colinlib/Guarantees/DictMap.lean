import Colinlib.Source.DictContents
import Colinlib.Theory.Runs
import Mathlib.Data.List.Range

/-!
# The dictionary is a finite map

The dictionary is run from `codict_new` by any operations; what a key is bound to
is read from their history. Its entries, in the order of the traversal list, are
those of an abstract sequence, which the machine refines.
-/
namespace Colinlib.Guarantees.DictMap
open Colinlib.Theory Colinlib.Theory.CMemory Colinlib.Theory.Chains Colinlib.Theory.Runs
open Colinlib.Source.Dict

variable {κ υ : Type}

inductive Op (κ υ : Type) where
  | set (key : κ) (val : υ)
  | get (key : κ)
  | del (key : κ)
  | clear
  | move (node : Nat) (head : Bool)

/-- `set` names the node `codict_set` returned. -/
inductive Event (κ υ : Type) where
  | set (node : Nat) (key : κ) (val : υ)
  | del (key : κ)
  | clear
  | move (node : Nat) (head : Bool)

/-- The value of the latest `codict_set` of a key that was not deleted since, in a
history (newest event first). -/
def latest (fnEqual : κ → κ → Bool) : List (Event κ υ) → κ → Option υ
  | [], _ => none
  | .set _ k v :: h, x => if fnEqual k x then some v else latest fnEqual h x
  | .del k :: h, x => if fnEqual k x then none else latest fnEqual h x
  | .clear :: _, _ => none
  | .move _ _ :: h, x => latest fnEqual h x

/-- A node at the head or the end of a sequence, if it is in there. -/
def moved (node : Nat) (head : Bool) (cells : List (Cell κ υ)) : List (Cell κ υ) :=
  match Keyed.find Cell.addr (· = ·) node cells with
  | none => cells
  | some c =>
    let rest := Keyed.without Cell.addr (· = ·) node cells
    if head then c :: rest else rest ++ [c]

/-- The abstract dictionary: its entries in traversal order. -/
def sequence (fnEqual : κ → κ → Bool) : List (Event κ υ) → List (Cell κ υ)
  | [] => []
  | .set a k v :: h =>
    let cells := sequence fnEqual h
    if Has fnEqual k cells then
      cells.map fun c => if Equal fnEqual k c.key then { c with value := v } else c
    else cells ++ [⟨a, k, v⟩]
  | .del k :: h => Keyed.without Cell.key (Equal fnEqual) k (sequence fnEqual h)
  | .clear :: _ => []
  | .move a head :: h => moved a head (sequence fnEqual h)

section Recursion

variable (fnEqual : κ → κ → Bool) (hist : List (Event κ υ)) (a : Nat) (k x : κ) (v : υ)
  (head : Bool)

@[simp] theorem latest_set : latest fnEqual (.set a k v :: hist) x =
    if fnEqual k x then some v else latest fnEqual hist x := rfl

@[simp] theorem latest_del : latest fnEqual (.del k :: hist) x =
    if fnEqual k x then none else latest fnEqual hist x := rfl

@[simp] theorem latest_move : latest fnEqual (.move a head :: hist) x = latest fnEqual hist x := rfl

@[simp] theorem sequence_set : sequence fnEqual (.set a k v :: hist) =
    if Has fnEqual k (sequence fnEqual hist) then
      (sequence fnEqual hist).map fun c =>
        if Equal fnEqual k c.key then { c with value := v } else c
    else sequence fnEqual hist ++ [⟨a, k, v⟩] := rfl

@[simp] theorem sequence_del : sequence fnEqual (.del k :: hist) =
    Keyed.without Cell.key (Equal fnEqual) k (sequence fnEqual hist) := rfl

@[simp] theorem sequence_move : sequence fnEqual (.move a head :: hist) =
    moved a head (sequence fnEqual hist) := rfl

end Recursion

abbrev World (κ υ : Type) := Codict κ υ × List (Event κ υ)

/-- A node to move is in the dictionary. -/
def step (w : World κ υ) : Op κ υ → Except (Halt Fault) (World κ υ)
  | .set k v =>
    match codictSet w.1 k v with
    | .ok (a, dict) => .ok (dict, .set a k v :: w.2)
    | .error f => .error (.fault f)
  | .get k =>
    match codictGet w.1 k with
    | .ok _ => .ok w
    | .error f => .error (.fault f)
  | .del k =>
    match codictDel w.1 k with
    | .ok (_, dict) => .ok (dict, .del k :: w.2)
    | .error f => .error (.fault f)
  | .clear =>
    match codictClear w.1 with
    | .ok dict => .ok (dict, .clear :: w.2)
    | .error f => .error (.fault f)
  | .move a head =>
    if (w.1.nodes a).isSome then
      match codictMove w.1 a head with
      | .ok dict => .ok (dict, .move a head :: w.2)
      | .error f => .error (.fault f)
    else .error .contract

/-- A run from `codict_new`. -/
def runNew (fnHash : κ → UInt64) (fnEqual : κ → κ → Bool) (ops : List (Op κ υ)) :
    Except (Halt Fault) (World κ υ) :=
  match codictNew fnHash fnEqual with
  | .ok dict => run step (dict, []) ops
  | .error f => .error (.fault f)

abbrev lookup (fnEqual : κ → κ → Bool) (k : κ) (cells : List (Cell κ υ)) : Option (Cell κ υ) :=
  Keyed.find Cell.key (Equal fnEqual) k cells

/-- What a history binds its keys to is what its sequence holds. -/
def Bound (fnEqual : κ → κ → Bool) (hist : List (Event κ υ)) : Prop :=
  ∀ x, latest fnEqual hist x = (lookup fnEqual x (sequence fnEqual hist)).map Cell.value

/-- The dictionary holds the abstract sequence. -/
structure Tracks (fnHash : κ → UInt64) (fnEqual : κ → κ → Bool) (w : World κ υ) : Prop where
  hash : w.1.fnHash = fnHash
  equal : w.1.fnEqual = fnEqual
  holds : Holds w.1 (sequence fnEqual w.2)
  bound : Bound fnEqual w.2

section Histories

variable {fnEqual : κ → κ → Bool} {hist : List (Event κ υ)}

theorem addr_distinct {cells : List (Cell κ υ)} (h : (addrs cells).Nodup) :
    Keyed.Distinct Cell.addr (· = ·) cells := List.pairwise_map.mp h

/-- A move permutes the entries. -/
theorem moved_perm {cells : List (Cell κ υ)} (h : (addrs cells).Nodup) (a : Nat) (head : Bool) :
    cells.Perm (moved a head cells) := by
  have distinct := addr_distinct h
  unfold moved
  rcases distinct.cases eq_equivalence a with ⟨l, c, r, rfl, same, found⟩ | ⟨-, found⟩
  · simp only [found, Keyed.without_split eq_equivalence distinct same]
    cases head with
    | true => exact List.perm_middle
    | false => exact List.perm_middle.trans (List.perm_append_singleton c (l ++ r)).symm
  · rw [found]

theorem bound_set (equiv : Equivalence (Equal fnEqual))
    (distinct : Keyed.Distinct Cell.key (Equal fnEqual) (sequence fnEqual hist))
    (bound : Bound fnEqual hist) (a : Nat) (k : κ) (v : υ) :
    Bound fnEqual (.set a k v :: hist) := by
  intro x
  have before := bound x
  rw [latest_set, sequence_set]
  rcases distinct.cases equiv k with ⟨l, c, r, split, same, -⟩ | ⟨absent, -⟩
  · have present : Has fnEqual k (sequence fnEqual hist) := ⟨c, by rw [split]; simp, same⟩
    rw [if_pos present, split]
    rw [split] at distinct before
    have distinct' : Keyed.Distinct Cell.key (Equal fnEqual) (l ++ { c with value := v } :: r) :=
      distinct.of_keys (by simp)
    rw [Keyed.map_split equiv distinct same]
    split
    · next equal =>
      rw [lookup, Keyed.find_split equiv distinct' (equiv.trans (equiv.symm equal) same)]
      rfl
    · next other =>
      have apart : ¬ Equal fnEqual x c.key := fun h => other (equiv.trans same (equiv.symm h))
      have apart' : ¬ Equal fnEqual x (Cell.key { c with value := v }) := apart
      rw [before, lookup, lookup, Keyed.find_skip apart, Keyed.find_skip apart']
  · rw [if_neg absent]
    have distinct' : Keyed.Distinct Cell.key (Equal fnEqual)
        (sequence fnEqual hist ++ ⟨a, k, v⟩ :: []) := by
      apply Keyed.Distinct.insert equiv <;> rwa [List.append_nil]
    split
    · next equal =>
      rw [lookup, Keyed.find_split equiv distinct' (equiv.symm equal)]
      rfl
    · next other =>
      rw [before, lookup, lookup, Keyed.find_skip fun h => other (equiv.symm h), List.append_nil]

theorem bound_del (equiv : Equivalence (Equal fnEqual))
    (distinct : Keyed.Distinct Cell.key (Equal fnEqual) (sequence fnEqual hist))
    (bound : Bound fnEqual hist) (k : κ) : Bound fnEqual (.del k :: hist) := by
  intro x
  have before := bound x
  rw [latest_del, sequence_del]
  have gone : Equal fnEqual k x → lookup fnEqual x
      (Keyed.without Cell.key (Equal fnEqual) k (sequence fnEqual hist)) = none := by
    intro equal
    apply Keyed.find_absent
    rw [Keyed.has_without equiv]
    exact fun h => h.2 equal
  split
  · next equal =>
    rw [gone equal]
    rfl
  · next other =>
    rw [before]
    rcases distinct.cases equiv k with ⟨l, c, r, split, same, -⟩ | ⟨absent, -⟩
    · rw [split] at distinct ⊢
      have apart : ¬ Equal fnEqual x c.key := fun h => other (equiv.trans same (equiv.symm h))
      rw [Keyed.without_split equiv distinct same, lookup, Keyed.find_skip apart]
    · rw [Keyed.without_absent absent]

theorem bound_move (equiv : Equivalence (Equal fnEqual))
    (distinct : Keyed.Distinct Cell.key (Equal fnEqual) (sequence fnEqual hist))
    (once : (addrs (sequence fnEqual hist)).Nodup) (bound : Bound fnEqual hist) (a : Nat)
    (head : Bool) : Bound fnEqual (.move a head :: hist) := by
  intro x
  have before := bound x
  rw [latest_move, sequence_move, before, lookup, lookup,
    distinct.find_perm equiv (moved_perm once a head)]

end Histories

section Steps

variable {fnHash : κ → UInt64} {fnEqual : κ → κ → Bool} {w : World κ υ}

theorem Tracks.law (law : Lawful fnHash fnEqual) (h : Tracks fnHash fnEqual w) :
    Lawful w.1.fnHash w.1.fnEqual := by
  rw [h.hash, h.equal]
  exact law

theorem Tracks.distinct (h : Tracks fnHash fnEqual w) :
    Keyed.Distinct Cell.key (Equal fnEqual) (sequence fnEqual w.2) := by
  have distinct := h.holds.distinct
  rwa [h.equal] at distinct

theorem set_tracks (law : Lawful fnHash fnEqual) (h : Tracks fnHash fnEqual w) (k : κ) (v : υ) :
    ∃ a dict, codictSet w.1 k v = .ok (a, dict) ∧
      Tracks fnHash fnEqual (dict, .set a k v :: w.2) := by
  obtain ⟨a, dict, run, hash, equal, effect⟩ := codictSet_spec (h.law law) h.holds k v
  refine ⟨a, dict, run, hash.trans h.hash, equal.trans h.equal, ?_,
    bound_set law.equiv h.distinct h.bound a k v⟩
  rw [h.equal] at effect
  rw [sequence_set]
  rcases effect with ⟨l, c, r, split, same, -, holds⟩ | ⟨absent, holds⟩
  · have distinct := h.distinct
    rw [split] at distinct
    rw [if_pos ⟨c, by rw [split]; simp, same⟩, split, Keyed.map_split law.equiv distinct same]
    exact holds
  · rw [if_neg absent]
    exact holds

theorem del_tracks (law : Lawful fnHash fnEqual) (h : Tracks fnHash fnEqual w) (k : κ) :
    ∃ b dict, codictDel w.1 k = .ok (b, dict) ∧ Tracks fnHash fnEqual (dict, .del k :: w.2) := by
  obtain ⟨b, dict, run, hash, equal, effect⟩ := codictDel_spec (h.law law) h.holds k
  refine ⟨b, dict, run, hash.trans h.hash, equal.trans h.equal, ?_,
    bound_del law.equiv h.distinct h.bound k⟩
  rw [h.equal] at effect
  rcases effect with ⟨-, l, c, r, split, same, holds⟩ | ⟨-, absent, rfl⟩
  · have distinct := h.distinct
    rw [split] at distinct
    rw [sequence_del, split, Keyed.without_split law.equiv distinct same]
    exact holds
  · rw [sequence_del, Keyed.without_absent absent]
    exact h.holds

theorem move_tracks (law : Lawful fnHash fnEqual) (h : Tracks fnHash fnEqual w) {a : Nat}
    (live : (w.1.nodes a).isSome) (head : Bool) :
    ∃ dict, codictMove w.1 a head = .ok dict ∧
      Tracks fnHash fnEqual (dict, .move a head :: w.2) := by
  obtain ⟨node, found⟩ := Option.isSome_iff_exists.mp live
  obtain ⟨c, hc, rfl, -⟩ := h.holds.entry found
  obtain ⟨l, r, split⟩ := List.append_of_mem hc
  have holds := h.holds
  rw [split] at holds
  obtain ⟨dict, run, hash, equal, holds'⟩ := codictMove_holds (h.law law).equiv holds head
  refine ⟨dict, run, hash.trans h.hash, equal.trans h.equal, ?_,
    bound_move law.equiv h.distinct h.holds.nodup h.bound c.addr head⟩
  have distinct := addr_distinct holds.nodup
  rw [sequence_move, split]
  simp only [moved]
  rw [Keyed.find_split eq_equivalence distinct rfl,
    Keyed.without_split eq_equivalence distinct rfl]
  exact holds'

/-- One operation refines the step of the abstract dictionary. -/
theorem step_tracks (law : Lawful fnHash fnEqual) (w : World κ υ) (op : Op κ υ)
    (h : Tracks fnHash fnEqual w) :
    Outcome Halt.ByCaller (Tracks fnHash fnEqual) (step w op) := by
  cases op with
  | set k v =>
      obtain ⟨a, dict, run, tracks⟩ := set_tracks law h k v
      simp only [step, run]
      exact tracks
  | get k =>
      rcases codictGet_spec (h.law law) h.holds k with ⟨run, -⟩ | ⟨_, c, _, run, -⟩ <;>
      · simp only [step, run]
        exact h
  | del k =>
      obtain ⟨b, dict, run, tracks⟩ := del_tracks law h k
      simp only [step, run]
      exact tracks
  | clear =>
      obtain ⟨dict, run, hash, equal, holds⟩ := codictClear_spec h.holds
      simp only [step, run]
      exact ⟨hash.trans h.hash, equal.trans h.equal, holds, fun _ => rfl⟩
  | move a head =>
      rw [step]
      split
      · next live =>
        obtain ⟨dict, run, tracks⟩ := move_tracks law h live head
        rw [run]
        exact tracks
      · trivial

theorem new_tracks (fnHash : κ → UInt64) (fnEqual : κ → κ → Bool) :
    ∃ dict : Codict κ υ, codictNew fnHash fnEqual = .ok dict ∧
      Tracks fnHash fnEqual (dict, []) := by
  obtain ⟨dict, run, hash, equal, holds⟩ := codictNew_spec (υ := υ) fnHash fnEqual
  exact ⟨dict, run, hash, equal, holds, fun _ => rfl⟩

/-- Every run refines the abstract dictionary. -/
theorem runNew_tracks (law : Lawful fnHash fnEqual) (ops : List (Op κ υ)) :
    Outcome Halt.ByCaller (Tracks fnHash fnEqual) (runNew fnHash fnEqual ops) := by
  obtain ⟨dict, new, tracks⟩ := new_tracks (υ := υ) fnHash fnEqual
  rw [runNew, new]
  exact outcome_run step Halt.ByCaller _ (step_tracks law) ops _ tracks

end Steps

/-- One key for each that a history binds. -/
structure KeysOf (fnEqual : κ → κ → Bool) (hist : List (Event κ υ)) (keys : List κ) : Prop where
  distinct : keys.Pairwise fun x y => ¬ fnEqual x y = true
  present : ∀ x, (latest fnEqual hist x).isSome ↔ ∃ k ∈ keys, fnEqual x k = true

/-- The dictionary binds every key to its latest value, and its nodes are in their
buckets. -/
structure FiniteMap (dict : Codict κ υ) (hist : List (Event κ υ)) : Prop where
  get : ∀ k v, latest dict.fnEqual hist k = some v → ∃ a node, codictGet dict k = .ok (some a) ∧
    dict.nodes a = some node ∧ node.value = v ∧ dict.fnEqual node.key k = true
  get_none : ∀ k, latest dict.fnEqual hist k = none → codictGet dict k = .ok none
  del : ∀ k, ∃ dict', codictDel dict k = .ok ((latest dict.fnEqual hist k).isSome, dict') ∧
    ∀ x, codictGet dict' x = if dict.fnEqual k x then .ok none else codictGet dict x
  once : ∀ a b node node', dict.nodes a = some node → dict.nodes b = some node' →
    dict.fnEqual node.key node'.key = true → a = b
  chains : ∀ i < dict.cap, ∃ ys, Bucket dict i ys
  bucket : ∀ a node, dict.nodes a = some node → node.hash = dict.fnHash node.key ∧
    ∀ i ys, Bucket dict i ys → (a ∈ ys ↔ i = node.hash.toNat % dict.cap)

section Reading

variable {fnHash : κ → UInt64} {fnEqual : κ → κ → Bool} {w : World κ υ}

theorem codictGet_eq {dict : Codict κ υ} {cells : List (Cell κ υ)}
    (law : Lawful dict.fnHash dict.fnEqual) (h : Holds dict cells) (k : κ) :
    codictGet dict k = .ok ((lookup dict.fnEqual k cells).map Cell.addr) := by
  rcases codictGet_spec law h k with ⟨run, absent⟩ | ⟨l, c, r, run, rfl, same⟩
  · rw [run, lookup, Keyed.find_absent absent]
    rfl
  · rw [run, lookup, Keyed.find_split law.equiv h.distinct same]
    rfl

theorem Tracks.finiteMap (law : Lawful fnHash fnEqual) (h : Tracks fnHash fnEqual w) :
    FiniteMap w.1 w.2 := by
  have holds := h.holds
  have bound := h.bound
  have law' := h.law law
  rw [← h.equal] at holds bound
  have distinct := holds.distinct
  refine ⟨?_, ?_, ?_, ?_, ?_, ?_⟩
  · intro k v now
    rw [bound k] at now
    rcases distinct.cases law'.equiv k with ⟨l, c, r, split, same, found⟩ | ⟨-, found⟩
    · rw [lookup, found] at now
      have hc : c ∈ sequence w.1.fnEqual w.2 := by
        rw [split]
        simp
      obtain ⟨node, node_found, key, value⟩ := holds.node hc
      refine ⟨c.addr, node, ?_, node_found, value.trans (Option.some.inj now), ?_⟩
      · rw [codictGet_eq law' holds, lookup, found]
        rfl
      · rw [key]
        exact law'.equiv.symm same
    · rw [lookup, found] at now
      cases now
  · intro k now
    rw [bound k, Option.map_eq_none_iff] at now
    rw [codictGet_eq law' holds, now]
    rfl
  · intro k
    obtain ⟨b, dict, run, hash, equal, effect⟩ := codictDel_spec law' holds k
    have law'' : Lawful dict.fnHash dict.fnEqual := by
      rw [hash, equal]
      exact law'
    refine ⟨dict, ?_, ?_⟩
    · rw [run, bound k]
      rcases effect with ⟨rfl, l, c, r, split, same, -⟩ | ⟨rfl, absent, -⟩
      · rw [split] at distinct ⊢
        rw [lookup, Keyed.find_split law'.equiv distinct same]
        rfl
      · rw [lookup, Keyed.find_absent absent]
        rfl
    · intro x
      rw [codictGet_eq law' holds]
      rcases effect with ⟨-, l, c, r, split, same, holds'⟩ | ⟨-, absent, rfl⟩
      · rw [codictGet_eq law'' holds', equal, split]
        rw [split] at distinct
        split
        · next here =>
          have absent : ¬ Has w.1.fnEqual x (l ++ r) := by
            rintro ⟨y, hy, same'⟩
            exact distinct.apart law'.equiv same y (List.mem_append.mp hy)
              (law'.equiv.trans here same')
          rw [lookup, Keyed.find_absent absent]
          rfl
        · next other =>
          have apart : ¬ Equal w.1.fnEqual x c.key := fun h =>
            other (law'.equiv.trans same (law'.equiv.symm h))
          rw [lookup, lookup, Keyed.find_skip apart]
      · rw [codictGet_eq law' holds]
        split
        · next here =>
          rw [lookup, Keyed.find_absent (mt (Keyed.Has.congr law'.equiv here).mpr absent)]
          rfl
        · rfl
  · intro a b node node' ha hb same
    obtain ⟨c, hc, rfl, key, -⟩ := holds.entry ha
    obtain ⟨c', hc', rfl, key', -⟩ := holds.entry hb
    rw [← key, ← key'] at same
    rw [distinct.unique law'.equiv hc hc' same]
  · intro i hi
    obtain ⟨ys, bucket, -⟩ := holds.chains.bucket i hi
    exact ⟨ys, bucket⟩
  · intro a node found
    obtain ⟨c, hc, rfl, key, -, hash⟩ := holds.entry found
    refine ⟨hash, fun i ys bucket => ?_⟩
    have hi : i < w.1.cap := by
      rw [← holds.chains.length]
      exact bucket.bound
    obtain ⟨zs, bucket', members⟩ := holds.chains.bucket i hi
    obtain rfl : ys = zs := (bucket.chain _ (List.getElem?_eq_getElem bucket.bound)).unique
      (bucket'.chain _ (List.getElem?_eq_getElem bucket.bound))
    rw [members, holds.slot hc, Option.some.injEq, hash, key]
    exact ⟨fun h => h.2.symm, fun h => ⟨mem_addrs.mpr ⟨c, hc, rfl⟩, h.symm⟩⟩

/-- The keys of the entries. -/
theorem Tracks.keysOf (law : Lawful fnHash fnEqual) (h : Tracks fnHash fnEqual w) :
    KeysOf fnEqual w.2 ((sequence fnEqual w.2).map Cell.key) where
  distinct := List.pairwise_map.mpr h.distinct
  present x := by
    rw [h.bound x]
    rcases h.distinct.cases law.equiv x with ⟨l, c, r, split, same, found⟩ | ⟨absent, found⟩
    · rw [lookup, found]
      exact iff_of_true rfl ⟨c.key, by rw [split]; simp, same⟩
    · rw [lookup, found]
      refine iff_of_false (by simp) ?_
      rintro ⟨k, hk, same⟩
      obtain ⟨c, hc, rfl⟩ := List.mem_map.mp hk
      exact absent ⟨c, hc, same⟩

end Reading

/-- After any operations the dictionary is the finite map of its history, and
`codict_count` is the number of its keys modulo `2 ^ 32`. -/
theorem codict_refines_map (fnHash : κ → UInt64) (fnEqual : κ → κ → Bool)
    (law : Lawful fnHash fnEqual) (ops : List (Op κ υ)) :
    Outcome Halt.ByCaller (fun w => w.1.fnEqual = fnEqual ∧ FiniteMap w.1 w.2 ∧
        ∃ keys, KeysOf fnEqual w.2 keys ∧ codictCount w.1 = keys.length % 2 ^ 32)
      (runNew fnHash fnEqual ops) := by
  refine (runNew_tracks law ops).mono fun w h => ⟨h.equal, h.finiteMap law, _, h.keysOf law, ?_⟩
  rw [List.length_map]
  exact h.holds.count

theorem codictInt_lawful : Lawful codictIntHash codictIntEqual := lawful_of_beq codictIntHash

/-- Integer keys, with one set twice and one deleted. -/
theorem codict_refines_map_integers :
    Lawful codictIntHash codictIntEqual ∧
    Outcome Halt.ByCaller (fun w => w.1.fnEqual = codictIntEqual ∧ FiniteMap w.1 w.2 ∧
        ∃ keys, KeysOf codictIntEqual w.2 keys ∧ codictCount w.1 = keys.length % 2 ^ 32)
      (runNew codictIntHash codictIntEqual
        [.set 1 10, .set 2 30, .set 3 50, .set 1 11, .del 2, .get 2] :
          Except (Halt Fault) (World Int32 Nat)) :=
  ⟨codictInt_lawful, codict_refines_map _ _ codictInt_lawful _⟩

section Wrapping

variable {fnHash : κ → UInt64} {fnEqual : κ → κ → Bool}

/-- Setting new keys adds them all. -/
theorem run_sets (law : Lawful fnHash fnEqual) (v : υ) (ks : List κ) (w : World κ υ)
    (h : Tracks fnHash fnEqual w) (apart : ks.Pairwise fun x y => ¬ fnEqual x y = true)
    (new : ∀ k ∈ ks, ¬ Has fnEqual k (sequence fnEqual w.2)) :
    ∃ w', run step w (ks.map fun k => .set k v) = .ok w' ∧ Tracks fnHash fnEqual w' ∧
      (sequence fnEqual w'.2).map Cell.key = (sequence fnEqual w.2).map Cell.key ++ ks := by
  induction ks generalizing w with
  | nil => exact ⟨w, rfl, h, by simp⟩
  | cons k rest ih =>
      obtain ⟨first, apart⟩ := List.pairwise_cons.mp apart
      obtain ⟨a, dict, set, tracks⟩ := set_tracks law h k v
      have longer : sequence fnEqual (.set a k v :: w.2) = sequence fnEqual w.2 ++ [⟨a, k, v⟩] :=
        if_neg (new k (by simp))
      have new' : ∀ x ∈ rest, ¬ Has fnEqual x (sequence fnEqual (.set a k v :: w.2)) := by
        rw [longer]
        rintro x hx ⟨c, hc, same⟩
        rcases List.mem_append.mp hc with hc | hc
        · exact new x (by simp [hx]) ⟨c, hc, same⟩
        · rw [List.mem_singleton.mp hc] at same
          exact first x hx (law.equiv.symm same)
      obtain ⟨w', ran, tracks', keys⟩ := ih _ tracks apart new'
      refine ⟨w', ?_, tracks', ?_⟩
      · rw [List.map_cons, run, step, set]
        exact ran
      · rw [keys, longer]
        simp

theorem word_lawful : Lawful (id : UInt64 → UInt64) (· == ·) where
  equiv := ⟨fun x => beq_self_eq_true x, fun h => beq_iff_eq.mpr (beq_iff_eq.mp h).symm,
    fun h h' => beq_iff_eq.mpr ((beq_iff_eq.mp h).trans (beq_iff_eq.mp h'))⟩
  hash _ _ h := beq_iff_eq.mp h

/-- The first `n` integers as keys. -/
def firstKeys (n : Nat) : List UInt64 := (List.range n).map UInt64.ofNat

theorem firstKeys_distinct {n : Nat} (small : n ≤ 2 ^ 64) :
    (firstKeys n).Pairwise fun x y => ¬ (x == y) = true := by
  apply List.pairwise_map.mpr
  refine List.nodup_range.imp_of_mem ?_
  intro i j hi hj ne same
  have hi := Nat.lt_of_lt_of_le (List.mem_range.mp hi) small
  have hj := Nat.lt_of_lt_of_le (List.mem_range.mp hj) small
  have equal := congrArg UInt64.toNat (beq_iff_eq.mp same)
  rw [UInt64.toNat_ofNat_of_lt' hi, UInt64.toNat_ofNat_of_lt' hj] at equal
  exact ne equal

theorem count_of_firstKeys {n : Nat} (small : n ≤ 2 ^ 64) :
    ∃ (w : World UInt64 Unit) (keys : List UInt64),
      runNew id (· == ·) ((firstKeys n).map fun k => .set k ()) = .ok w ∧
        KeysOf (· == ·) w.2 keys ∧ keys.length = n ∧ codictCount w.1 = n % 2 ^ 32 := by
  obtain ⟨dict, new, tracks⟩ := new_tracks (υ := Unit) (id : UInt64 → UInt64) (· == ·)
  have absent : ∀ k ∈ firstKeys n,
      ¬ Has (· == ·) k (sequence (· == ·) ([] : List (Event UInt64 Unit))) := by
    rintro k - ⟨c, hc, -⟩
    cases hc
  obtain ⟨w, ran, tracks', keys⟩ := run_sets word_lawful () (firstKeys n) _ tracks
    (firstKeys_distinct small) absent
  have length : ((sequence (· == ·) w.2).map Cell.key).length = n := by
    rw [keys, firstKeys]
    simp [sequence]
  refine ⟨w, _, ?_, tracks'.keysOf word_lawful, length, ?_⟩
  · rw [runNew, new]
    exact ran
  · rw [List.length_map] at length
    rw [codictCount, tracks'.holds.count, length]

/-- A dictionary of `2 ^ 32` keys has the count of an empty one. -/
theorem count_wraps :
    ∃ (w : World UInt64 Unit) (keys : List UInt64),
      runNew id (· == ·) ((firstKeys (2 ^ 32)).map fun k => .set k ()) = .ok w ∧
        KeysOf (· == ·) w.2 keys ∧ keys.length = 2 ^ 32 ∧ codictCount w.1 = 0 := by
  obtain ⟨w, keys, ran, keysOf, length, count⟩ :=
    count_of_firstKeys (show 2 ^ 32 ≤ 2 ^ 64 by decide)
  rw [Nat.mod_self] at count
  exact ⟨w, keys, ran, keysOf, length, count⟩

end Wrapping

end Colinlib.Guarantees.DictMap
