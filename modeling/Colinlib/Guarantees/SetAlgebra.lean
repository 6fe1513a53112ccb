import Colinlib.Source.SetIterate
import Colinlib.Guarantees.SetSemantics

/-!
# Operations on two sets

A loop that deletes stays on nodes of the tree as long as the node it stands on is the one
that is freed. Where that node has two children its successor is freed instead, and the
pointer that was saved to it dangles.
-/
namespace Colinlib.Guarantees.SetAlgebra
open Colinlib.Theory Colinlib.Theory.CMemory Colinlib.Theory.RedBlack Colinlib.Theory.Runs
open Colinlib.Theory.RedBlack.ColorTree
open Colinlib.Source.Set
open Colinlib.Guarantees.SetSemantics

variable {α : Type} {set : Coset α} {t : ATree α} {cmp : α → α → Int}

section Entries

theorem getData_entry (h : Heap set t) {e : Nat × α} (there : e ∈ t.entries) :
    getData set (.node e.1) = .ok e.2 := by
  obtain ⟨path, c, near, far, rfl⟩ := exists_focus .left there
  exact h.getData

/-- Two entries with equal data are one. -/
theorem entry_unique (hc : Consistent cmp) {l : List (Nat × α)} (sorted : Sorted cmp l)
    {x y : Nat × α} (hx : x ∈ l) (hy : y ∈ l) (same : cmp x.2 y.2 = 0) : x = y := by
  have before := hc.antisymm y.2 x.2
  induction l with
  | nil => cases hx
  | cons z rest ih =>
      obtain ⟨below, sorted⟩ := List.pairwise_cons.mp sorted
      rcases List.mem_cons.mp hx with rfl | hx'
      · rcases List.mem_cons.mp hy with rfl | hy'
        · rfl
        · have := below y hy'
          omega
      · rcases List.mem_cons.mp hy with rfl | hy'
        · have := below x hx'
          omega
        · exact ih sorted hx' hy'

theorem same_refl (hc : Consistent cmp) (x : α) : cmp x x = 0 := (same_equivalence hc).refl x

theorem cosetSearch_entry (hc : Consistent set.fnComp) (v : Valid set t) {e : Nat × α}
    (there : e ∈ t.entries) : cosetSearch set e.2 = .ok (.node e.1) := by
  rcases cosetSearch_spec hc v e.2 with ⟨-, absent⟩ | ⟨path, c, l, x, r, run, rfl, same⟩
  · exact absurd (same_refl hc e.2) (absent e there)
  · have hx : x ∈ (plug path (.node c l x r)).entries :=
      mem_entries_plug_join .left c l r x
    obtain rfl := entry_unique hc v.sorted there hx same
    exact run

/-- A deletion by an entry's own data removes that entry. -/
theorem cosetDelete_entry (hc : Consistent set.fnComp) (v : Valid set t) {e : Nat × α}
    (there : e ∈ t.entries) :
    ∃ set' t', cosetDelete set e.2 = .ok set' ∧ Deleted set set' e t t' := by
  rcases cosetDelete_node hc v e.2 with ⟨-, absent⟩ | ⟨set', t', x, run, same, deleted⟩
  · exact absurd (same_refl hc e.2) (absent e there)
  · have hx : x ∈ t.entries := by
      cases deleted.removal with
      | self sole old => simp [old]
      | successor both old => simp [old]
    obtain rfl := entry_unique hc v.sorted there hx same
    exact ⟨set', t', run, deleted⟩

end Entries

/-! ## Clearing -/

/-- Deletions one after another, each given the data of a node and freeing that node. -/
inductive FreesInTurn : Coset α → List Nat → Coset α → Prop where
  | done (set : Coset α) : FreesInTurn set [] set
  | free {set set₁ set' : Coset α} {a : Nat} {x : α} {rest : List Nat}
      (data : getData set (.node a) = .ok x) (run : cosetDelete set x = .ok set₁)
      (gone : ∀ b, (set₁.nodes b).isSome ↔ (set.nodes b).isSome ∧ b ≠ a)
      (later : FreesInTurn set₁ rest set') : FreesInTurn set (a :: rest) set'

/-- The loop is always at the first node in the order. -/
theorem clearLoop_spec (n : Nat) {set : Coset α} {t : ATree α} (hc : Consistent set.fnComp)
    (s : Sound set t) (enough : t.entries.length ≤ n) :
    ∃ set', clearLoop n set (toNode t.entries.head?) = .ok set' ∧ Sound set' .leaf ∧
      set'.fnComp = set.fnComp ∧ FreesInTurn set (addrs t) set' := by
  induction n generalizing set t with
  | zero =>
      obtain rfl := entries_nil (List.length_eq_zero_iff.mp (Nat.le_zero.mp enough))
      exact ⟨set, rfl, s, rfl, .done set⟩
  | succ n ih =>
      cases order : t.entries with
      | nil =>
          obtain rfl := entries_nil order
          exact ⟨set, rfl, s, rfl, .done set⟩
      | cons e rest =>
          have there : e ∈ t.entries := by simp [order]
          have data := getData_entry s.heap there
          have next := cosetNext_spec s.toValid (show t.entries = [] ++ e :: rest from order)
          obtain ⟨set₁, t₁, run, deleted⟩ := cosetDelete_entry hc s.toValid there
          have left : t₁.entries = rest := by
            have nodup := s.heap.nodup_inOrder .right
            have once : ([] ++ e :: rest).Nodup := order ▸ nodup
            cases deleted.removal with
            | self sole old new =>
                obtain ⟨rfl, rfl⟩ := split_unique once (order.symm.trans old)
                exact new
            | successor both => exact absurd (sole_first s.heap order) both
          have nodes : addrs t = e.1 :: addrs t₁ := by rw [addrs, addrs, order, left, List.map_cons]
          have new : e.1 ∉ addrs t₁ := (List.nodup_cons.mp (nodes ▸ s.heap.distinct)).1
          have s₁ := deleted.sound s
          have gone : ∀ b, (set₁.nodes b).isSome ↔ (set.nodes b).isSome ∧ b ≠ e.1 := by
            intro b
            rw [s.exact, s₁.exact, nodes, List.mem_cons]
            refine ⟨fun hb => ⟨.inr hb, fun same => new (same ▸ hb)⟩, fun held => ?_⟩
            exact held.1.resolve_left held.2
          have short : t₁.entries.length ≤ n := by
            rw [left]
            rw [order] at enough
            exact Nat.le_of_succ_le_succ enough
          obtain ⟨set', later, empty, comp, frees⟩ := ih (deleted.fnComp ▸ hc) s₁ short
          rw [left] at later
          refine ⟨set', ?_, empty, comp.trans deleted.fnComp, ?_⟩
          · rw [List.head?_cons, toNode, Option.map_some, clearLoop, next, ok_bind, data, ok_bind,
              run, ok_bind, later]
          · rw [nodes]
            exact .free data run gone frees

theorem cosetClear_spec (hc : Consistent set.fnComp) (s : Sound set t) :
    ∃ set', cosetClear set = .ok set' ∧ Sound set' .leaf ∧ set'.fnComp = set.fnComp ∧
      FreesInTurn set (addrs t) set' := by
  have start : cosetBegin set = .ok (toNode t.entries.head?) := outermost_spec s.toValid .left
  obtain ⟨set', run, empty, later⟩ := clearLoop_spec (fuel set) hc s (by
    have := s.size
    unfold fuel
    omega)
  refine ⟨set', ?_, empty, later⟩
  rw [cosetClear, start, ok_bind, run]

/-! ## Intersection -/

/-- The elements of `l` with an equal one in `m`. -/
def common (cmp : α → α → Int) (l m : List α) : List α := l.filter fun x => Has cmp x m

/-- The elements of `l` with no equal one in `m`. -/
def difference (cmp : α → α → Int) (l m : List α) : List α := l.filter fun x => ¬ Has cmp x m

/-- Deleted in this order, every element is in a node with at most one child at its turn. -/
def Peels (set : Coset α) : List α → Prop
  | [] => True
  | x :: rest => (∃ p, cosetSearch set x = .ok p ∧ Sole set p) ∧
      ∀ set', cosetDelete set x = .ok set' → Peels set' rest

section Intersect

/-- A dangling pointer is not followed. -/
theorem cosetNext_freed {a : Nat} (gone : set.nodes a = none) :
    cosetNext set (.node a) = .error .badPointer := by
  have read : getChild .right set (.node a) = .error .badPointer := by
    rw [getChild, deref, gone]
    rfl
  rw [cosetNext, cosetSuccessor, neighbour, read]
  rfl

theorem intersectLoop_freed {other : Option (Coset α)} {a : Nat} (gone : set.nodes a = none)
    (n : Nat) (set' : Coset α) : intersectLoop other n set (some (.node a)) ≠ .ok set' := by
  cases n with
  | zero => nofun
  | succ n =>
      rw [intersectLoop, intersectStep, cosetNext_freed gone]
      nofun

/-- The loop against a set of its own, from any of its nodes. -/
theorem intersectLoop_spec (n : Nat) {set set₂ : Coset α} {t t₂ : ATree α}
    {pre ys : List (Nat × α)} (hc : Consistent set.fnComp) (s : Sound set t) (s₂ : Sound set₂ t₂)
    (comp : set₂.fnComp = set.fnComp) (order : t.entries = pre ++ ys) (enough : ys.length ≤ n) :
    (Peels set (difference set.fnComp (ys.map Prod.snd) (contents t₂)) →
      ∃ set' t', intersectLoop (some set₂) n set (toNode ys.head?) = .ok set' ∧ Sound set' t' ∧
        set'.fnComp = set.fnComp ∧
        contents t' = pre.map Prod.snd ++ common set.fnComp (ys.map Prod.snd) (contents t₂)) ∧
    ∀ set', intersectLoop (some set₂) n set (toNode ys.head?) = .ok set' →
      Peels set (difference set.fnComp (ys.map Prod.snd) (contents t₂)) := by
  induction n generalizing set t pre ys with
  | zero =>
      obtain rfl := List.length_eq_zero_iff.mp (Nat.le_zero.mp enough)
      refine ⟨fun _ => ⟨set, t, rfl, s, rfl, ?_⟩, fun _ _ => trivial⟩
      rw [contents, order]
      simp [common]
  | succ n ih =>
      cases ys with
      | nil =>
          refine ⟨fun _ => ⟨set, t, rfl, s, rfl, ?_⟩, fun _ _ => trivial⟩
          rw [contents, order]
          simp [common]
      | cons e rest =>
          have there : e ∈ t.entries := by simp [order]
          have next := cosetNext_spec s.toValid order
          have data := getData_entry s.heap there
          have short := Nat.le_of_succ_le_succ enough
          obtain ⟨b, exist, answer⟩ := cosetExist_spec (comp ▸ hc) s₂.toValid e.2
          have answer : b = true ↔ Has set.fnComp e.2 (contents t₂) := by
            rw [answer, comp, has_contents]
          cases b with
          | true =>
              -- the element stays
              have found := answer.mp rfl
              have step : intersectStep (some set₂) set (.node e.1) =
                  .ok (set, toNode rest.head?) := by
                rw [intersectStep, next, ok_bind, data, ok_bind, Option.getD_some, exist, ok_bind]
                rfl
              have more : t.entries = (pre ++ [e]) ++ rest := by simp [order]
              obtain ⟨right, back⟩ := ih hc s comp more short
              have loop : intersectLoop (some set₂) (n + 1) set (toNode (e :: rest).head?) =
                  intersectLoop (some set₂) n set (toNode rest.head?) := by
                rw [List.head?_cons, toNode, Option.map_some, intersectLoop, step, ok_bind]
              have stays : difference set.fnComp ((e :: rest).map Prod.snd) (contents t₂) =
                  difference set.fnComp (rest.map Prod.snd) (contents t₂) :=
                List.filter_cons_of_neg (by simpa using found)
              rw [stays, loop]
              refine ⟨fun peels => ?_, back⟩
              obtain ⟨set', t', run, s', comp', same⟩ := right peels
              refine ⟨set', t', run, s', comp', ?_⟩
              rw [same, common, common, List.map_cons,
                List.filter_cons_of_pos (by simpa using found)]
              simp
          | false =>
              have absent : ¬ Has set.fnComp e.2 (contents t₂) := fun h => by
                cases answer.mpr h
              obtain ⟨set₁, t₁, run, deleted⟩ := cosetDelete_entry hc s.toValid there
              have found := cosetSearch_entry hc s.toValid there
              have step : intersectStep (some set₂) set (.node e.1) =
                  .ok (set₁, toNode rest.head?) := by
                rw [intersectStep, next, ok_bind, data, ok_bind, Option.getD_some, exist, ok_bind]
                simp only [Bool.false_eq_true, if_false, ok_bind, run]
              have loop : intersectLoop (some set₂) (n + 1) set (toNode (e :: rest).head?) =
                  intersectLoop (some set₂) n set₁ (toNode rest.head?) := by
                rw [List.head?_cons, toNode, Option.map_some, intersectLoop, step, ok_bind]
              have goes : difference set.fnComp ((e :: rest).map Prod.snd) (contents t₂) =
                  e.2 :: difference set.fnComp (rest.map Prod.snd) (contents t₂) :=
                List.filter_cons_of_pos (by simpa using absent)
              have once := s.heap.nodup_inOrder .right
              rw [inOrder, order] at once
              rw [goes, loop]
              cases deleted.removal with
              | @self l r sole old new =>
                  obtain ⟨rfl, rfl⟩ := split_unique once (order.symm.trans old)
                  obtain ⟨right, back⟩ := ih (deleted.fnComp ▸ hc) (deleted.sound s)
                    (comp.trans deleted.fnComp.symm) new short
                  rw [deleted.fnComp] at right back
                  refine ⟨fun peels => ?_, fun set' ran => ⟨⟨_, found, sole⟩, fun set'' del => ?_⟩⟩
                  · obtain ⟨set', t', run', s', comp', same⟩ := right (peels.2 _ run)
                    refine ⟨set', t', run', s', comp', ?_⟩
                    rw [same, common, common, List.map_cons,
                      List.filter_cons_of_neg (by simpa using absent)]
                  · cases run.symm.trans del
                    exact back set' ran
              | @successor l d r both old new freed =>
                  -- the saved pointer is to the node that was freed
                  obtain ⟨rfl, rfl⟩ := split_unique once (order.symm.trans old)
                  refine ⟨fun peels => ?_, fun set' ran => ?_⟩
                  · obtain ⟨⟨p, at_p, sole⟩, -⟩ := peels
                    cases found.symm.trans at_p
                    exact absurd sole both
                  · exact absurd ran (intersectLoop_freed freed.gone n set')

/-- The loop against its own set deletes nothing. -/
theorem intersectLoop_same (n : Nat) {pre ys : List (Nat × α)} (hc : Consistent set.fnComp)
    (s : Sound set t) (order : t.entries = pre ++ ys) (enough : ys.length ≤ n) :
    intersectLoop none n set (toNode ys.head?) = .ok set := by
  induction n generalizing pre ys with
  | zero =>
      obtain rfl := List.length_eq_zero_iff.mp (Nat.le_zero.mp enough)
      rfl
  | succ n ih =>
      cases ys with
      | nil => rfl
      | cons e rest =>
          have there : e ∈ t.entries := by simp [order]
          have data := getData_entry s.heap there
          obtain ⟨b, exist, answer⟩ := cosetExist_spec hc s.toValid e.2
          obtain rfl : b = true := answer.mpr ⟨e, there, same_refl hc e.2⟩
          have step : intersectStep none set (.node e.1) = .ok (set, toNode rest.head?) := by
            rw [intersectStep, cosetNext_spec s.toValid order, ok_bind, data, ok_bind,
              Option.getD_none, exist, ok_bind]
            rfl
          have more : t.entries = (pre ++ [e]) ++ rest := by simp [order]
          rw [List.head?_cons, toNode, Option.map_some, intersectLoop, step, ok_bind]
          exact ih more (Nat.le_of_succ_le_succ enough)

end Intersect

/-! ## Union and difference -/

section Union

/-- The elements of `m` are added where they are not there. -/
theorem unionLoop_spec (n : Nat) {set set₂ : Coset α} {t t₂ : ATree α} {pre ys : List (Nat × α)}
    (hc : Consistent set.fnComp) (s : Sound set t) (s₂ : Sound set₂ t₂)
    (comp : set₂.fnComp = set.fnComp) (order : t₂.entries = pre ++ ys) (enough : ys.length ≤ n) :
    UnlessOverflow (unionLoop (some set₂) n set (toNode ys.head?)) (fun set' =>
      set'.fnComp = set.fnComp ∧ ∃ t', Sound set' t' ∧ ∀ x, x ∈ contents t' ↔
        x ∈ contents t ∨ x ∈ ys.map Prod.snd ∧ ¬ Has set.fnComp x (contents t)) := by
  induction n generalizing set t pre ys with
  | zero =>
      obtain rfl := List.length_eq_zero_iff.mp (Nat.le_zero.mp enough)
      exact ⟨rfl, t, s, fun x => by simp⟩
  | succ n ih =>
      cases ys with
      | nil => exact ⟨rfl, t, s, fun x => by simp⟩
      | cons e rest =>
          have data := getData_entry s₂.heap (show e ∈ t₂.entries by simp [order])
          have next := cosetNext_spec s₂.toValid order
          have more : t₂.entries = (pre ++ [e]) ++ rest := by simp [order]
          have apart : ∀ x ∈ rest, set.fnComp x.2 e.2 ≠ 0 := by
            have sorted := s₂.sorted
            rw [order, comp] at sorted
            intro x hx same
            have below := (List.pairwise_cons.mp (List.pairwise_append.mp sorted).2.1).1 x hx
            have := hc.antisymm e.2 x.2
            omega
          rw [List.head?_cons, toNode, Option.map_some, unionLoop]
          simp only [Option.getD_some, data, ok_bind, next]
          refine (cosetAdd_sound hc s e.2).bind ?_
          rintro set₁ ⟨comp₁, t₁, s₁, old⟩
          have later := ih (comp₁ ▸ hc) s₁ (comp.trans comp₁.symm) more (Nat.le_of_succ_le_succ enough)
          rw [comp₁] at later
          refine later.mono ?_
          rintro set' ⟨comp', t', s', members⟩
          refine ⟨comp', t', s', fun x => ?_⟩
          rw [members]
          rcases old with ⟨rfl, rfl, found⟩ | ⟨l, r, old, new⟩
          · refine or_congr_right (and_congr_left fun no => ?_)
            rw [List.map_cons, List.mem_cons]
            refine ⟨.inr, fun hx => ?_⟩
            rcases hx with rfl | hx
            · exact absurd (has_contents.mpr found) no
            · exact hx
          · have inNew : ∀ z, z ∈ contents t₁ ↔ z = e.2 ∨ z ∈ contents t := by
              intro z
              rw [contents, contents, new, old]
              simp only [List.map_append, List.map_cons, List.mem_append, List.mem_cons]
              tauto
            have fresh : ¬ Has set.fnComp e.2 (contents t) := by
              have distinct := distinct_of_sorted s₁.sorted
              rw [new, List.map_append, List.map_cons, comp₁] at distinct
              rw [contents, old, List.map_append]
              exact (Keyed.distinct_cons.mp
                (distinct.of_perm (same_equivalence hc) List.perm_middle)).1
            have hasNew : Has set.fnComp x (contents t₁) ↔
                set.fnComp x e.2 = 0 ∨ Has set.fnComp x (contents t) := by
              constructor
              · rintro ⟨z, hz, same⟩
                rcases (inNew z).mp hz with rfl | hz
                · exact .inl same
                · exact .inr ⟨z, hz, same⟩
              · rintro (same | ⟨z, hz, same⟩)
                · exact ⟨e.2, (inNew _).mpr (.inl rfl), same⟩
                · exact ⟨z, (inNew z).mpr (.inr hz), same⟩
            rw [inNew, hasNew, List.map_cons, List.mem_cons]
            constructor
            · rintro ((rfl | hx) | ⟨hx, no⟩)
              · exact .inr ⟨.inl rfl, fresh⟩
              · exact .inl hx
              · exact .inr ⟨.inr hx, fun has => no (.inr has)⟩
            · rintro (hx | ⟨rfl | hx, no⟩)
              · exact .inl (.inr hx)
              · exact .inl (.inl rfl)
              · obtain ⟨z, hz, rfl⟩ := List.mem_map.mp hx
                exact .inr ⟨hx, fun has => has.elim (apart z hz) no⟩

/-- Adding a set's elements to itself changes nothing. -/
theorem unionLoop_same (n : Nat) {pre ys : List (Nat × α)} (hc : Consistent set.fnComp)
    (s : Sound set t) (order : t.entries = pre ++ ys) (enough : ys.length ≤ n) :
    unionLoop none n set (toNode ys.head?) = .ok set := by
  induction n generalizing pre ys with
  | zero =>
      obtain rfl := List.length_eq_zero_iff.mp (Nat.le_zero.mp enough)
      rfl
  | succ n ih =>
      cases ys with
      | nil => rfl
      | cons e rest =>
          have there : e ∈ t.entries := by simp [order]
          have present := cosetAdd_present hc s.toValid ⟨e, there, same_refl hc e.2⟩
          have more : t.entries = (pre ++ [e]) ++ rest := by simp [order]
          rw [List.head?_cons, toNode, Option.map_some, unionLoop]
          simp only [Option.getD_none, getData_entry s.heap there, ok_bind, present,
            cosetNext_spec s.toValid order]
          exact ih more (Nat.le_of_succ_le_succ enough)

end Union

section Minus

theorem has_cons {x y : α} {l : List α} :
    Has cmp x (y :: l) ↔ cmp x y = 0 ∨ Has cmp x l := by
  simp [Keyed.Has, Same]

/-- One deletion, in terms of the elements. -/
theorem cosetDelete_contents (hc : Consistent set.fnComp) (s : Sound set t) (x : α) :
    ∃ set' t', cosetDelete set x = .ok set' ∧ Sound set' t' ∧ set'.fnComp = set.fnComp ∧
      contents t' = without set.fnComp x (contents t) := by
  rcases cosetDelete_node hc s.toValid x with ⟨run, absent⟩ | ⟨set', t', y, run, equal, deleted⟩
  · refine ⟨set, t, run, s, rfl, (Keyed.without_absent fun found => ?_).symm⟩
    obtain ⟨y, hy, equal⟩ := has_contents.mp found
    exact absent y hy equal
  · obtain ⟨l, r, old, new⟩ := deleted.removal.data
    have distinct := distinct_of_sorted s.sorted
    refine ⟨set', t', run, deleted.sound s, deleted.fnComp, ?_⟩
    rw [contents, contents, new, old]
    rw [old] at distinct
    exact (Keyed.without_split (same_equivalence hc) distinct equal).symm

theorem minusLoop_spec (n : Nat) {set set₂ : Coset α} {t t₂ : ATree α} {pre ys : List (Nat × α)}
    (hc : Consistent set.fnComp) (s : Sound set t) (s₂ : Sound set₂ t₂)
    (order : t₂.entries = pre ++ ys) (enough : ys.length ≤ n) :
    ∃ set' t', minusLoop (some set₂) n set (toNode ys.head?) = .ok set' ∧ Sound set' t' ∧
      set'.fnComp = set.fnComp ∧
      contents t' = difference set.fnComp (contents t) (ys.map Prod.snd) := by
  induction n generalizing set t pre ys with
  | zero =>
      obtain rfl := List.length_eq_zero_iff.mp (Nat.le_zero.mp enough)
      exact ⟨set, t, rfl, s, rfl, by simp [difference, Keyed.Has]⟩
  | succ n ih =>
      cases ys with
      | nil => exact ⟨set, t, rfl, s, rfl, by simp [difference, Keyed.Has]⟩
      | cons e rest =>
          have data := getData_entry s₂.heap (show e ∈ t₂.entries by simp [order])
          have more : t₂.entries = (pre ++ [e]) ++ rest := by simp [order]
          obtain ⟨set₁, t₁, run, s₁, comp, removed⟩ := cosetDelete_contents hc s e.2
          obtain ⟨set', t', later, s', comp', same⟩ :=
            ih (comp ▸ hc) s₁ more (Nat.le_of_succ_le_succ enough)
          refine ⟨set', t', ?_, s', comp'.trans comp, ?_⟩
          · rw [List.head?_cons, toNode, Option.map_some, minusLoop]
            simp only [Option.getD_some, data, ok_bind, run, cosetNext_spec s₂.toValid order, later]
          · rw [same, removed, comp, difference, difference, without, Keyed.without,
              List.filter_filter]
            refine List.filter_congr fun x _ => ?_
            have swap : Same set.fnComp e.2 x ↔ Same set.fnComp x e.2 :=
              ⟨(same_equivalence hc).symm, (same_equivalence hc).symm⟩
            rw [← Bool.decide_and, decide_eq_decide, List.map_cons, has_cons, not_or, id, swap]
            exact and_comm

/-- The first deletion frees the node the loop stands on. -/
theorem minusLoop_same (n : Nat) (hc : Consistent set.fnComp) (s : Sound set t) {e : Nat × α}
    {rest : List (Nat × α)} (order : t.entries = e :: rest) (set' : Coset α) :
    minusLoop none n set (some (.node e.1)) ≠ .ok set' := by
  cases n with
  | zero => nofun
  | succ n =>
      have there : e ∈ t.entries := by simp [order]
      obtain ⟨set₁, t₁, run, deleted⟩ := cosetDelete_entry hc s.toValid there
      cases deleted.removal with
      | successor both => exact absurd (sole_first s.heap order) both
      | self sole old new freed =>
          rw [minusLoop]
          simp only [Option.getD_none, getData_entry s.heap there, ok_bind, run,
            cosetNext_freed freed.gone]
          nofun

end Minus

/-! ## Every reachable set -/

/-- The set is a red-black tree that stores `l`, with no node besides. -/
def Represents (set : Coset α) (l : List α) : Prop := ∃ t, Sound set t ∧ contents t = l

theorem holds_unique {nodes : Nat → Option (Node α)} {t t' : ATree α} {p : Ref}
    (h : Holds nodes t p) (h' : Holds nodes t' p) (same : ref t = ref t') : t = t' := by
  induction t generalizing t' p with
  | leaf =>
      cases t' with
      | leaf => rfl
      | node => cases same
  | node c l e r ihl ihr =>
      cases t' with
      | leaf => cases same
      | node c' l' e' r' =>
          have addr : e.1 = e'.1 := Ref.node.inj same
          obtain ⟨cell, hl, hr⟩ := h
          obtain ⟨cell', hl', hr'⟩ := h'
          rw [addr] at cell hl hr
          have both := Option.some.inj (cell.symm.trans cell')
          obtain rfl := ihl hl hl' (congrArg Node.left both)
          obtain rfl := ihr hr hr' (congrArg Node.right both)
          obtain rfl : c = c' := congrArg Node.color both
          obtain rfl : e = e' := Prod.ext addr (congrArg Node.data both)
          rfl

theorem Represents.unique {l l' : List α} (h : Represents set l) (h' : Represents set l') :
    l = l' := by
  obtain ⟨t, s, rfl⟩ := h
  obtain ⟨t', s', rfl⟩ := h'
  rw [holds_unique s.heap.holds s'.heap.holds (s.heap.root.symm.trans s'.heap.root)]

theorem represents (s : Sound set t) : Represents set (contents t) := ⟨t, s, rfl⟩

/-- The elements of the union: what is new of the second set joins the first. -/
def InUnion (cmp : α → α → Int) (l m : List α) (x : α) : Prop := x ∈ l ∨ x ∈ m ∧ ¬ Has cmp x l

/-- The union is in the set, unless its size leaves the `int` range. -/
def UnionRight (set : Coset α) (other : Option (Coset α)) : Prop :=
  ∀ l m, Represents set l → Represents (other.getD set) m →
    UnlessOverflow (cosetUnion set other) (fun set' => set'.fnComp = set.fnComp ∧
      ∃ l', Represents set' l' ∧ ∀ x, x ∈ l' ↔ InUnion set.fnComp l m x)

def IntersectRight (set : Coset α) (other : Option (Coset α)) : Prop :=
  ∀ l m, Represents set l → Represents (other.getD set) m →
    ∃ set', cosetIntersect set other = .ok set' ∧ set'.fnComp = set.fnComp ∧
      Represents set' (common set.fnComp l m)

/-- No element that the intersection leaves out is in a node with two children when it is
its turn to go. -/
def Spared (set : Coset α) (other : Option (Coset α)) : Prop :=
  ∀ l m, Represents set l → Represents (other.getD set) m →
    Peels set (difference set.fnComp l m)

def MinusRight (set : Coset α) (other : Option (Coset α)) : Prop :=
  ∀ l m, Represents set l → Represents (other.getD set) m →
    ∃ set', cosetMinus set other = .ok set' ∧ set'.fnComp = set.fnComp ∧
      Represents set' (difference set.fnComp l m)

/-- The second argument is another set of the same kind, or the first again. -/
def Alike (set : Coset α) (other : Option (Coset α)) : Prop :=
  ∀ set₂, other = some set₂ → set₂.fnComp = set.fnComp ∧ ∃ t₂, Sound set₂ t₂

section Operations
variable {other : Option (Coset α)}

theorem begins (v : Valid set t) : cosetBegin set = .ok (toNode t.entries.head?) :=
  outermost_spec v .left

theorem enough (v : Valid set t) : t.entries.length ≤ fuel set := by
  have := v.size
  unfold fuel
  omega

theorem cosetUnion_right (hc : Consistent set.fnComp) (s : Sound set t) (alike : Alike set other) :
    UnionRight set other := by
  rintro l m rep ⟨t₂, s₂, rfl⟩
  obtain rfl := rep.unique (represents s)
  unfold cosetUnion
  rw [begins s₂.toValid, ok_bind]
  cases other with
  | none =>
      have own : contents t = contents t₂ := rep.unique (represents s₂)
      rw [Option.getD_none, unionLoop_same (fuel set) hc s₂ (show t₂.entries = [] ++ _ from rfl)
        (enough s₂.toValid), own]
      refine ⟨rfl, _, represents s₂, fun x => ⟨.inl, fun hx => hx.elim id fun hx => ?_⟩⟩
      exact absurd ⟨x, hx.1, same_refl hc x⟩ hx.2
  | some set₂ =>
      have spec := unionLoop_spec (fuel set₂) hc s s₂ (alike set₂ rfl).1
        (show t₂.entries = [] ++ _ from rfl) (enough s₂.toValid)
      refine spec.mono ?_
      rintro set' ⟨comp, t', s', members⟩
      exact ⟨comp, _, (represents s'), members⟩

theorem cosetMinus_right (hc : Consistent set.fnComp) (s : Sound set t) {set₂ : Coset α} :
    MinusRight set (some set₂) := by
  rintro l m rep ⟨t₂, s₂, rfl⟩
  obtain rfl := rep.unique (represents s)
  obtain ⟨set', t', run, s', comp, same⟩ := minusLoop_spec (fuel set₂) hc s s₂
    (show t₂.entries = [] ++ _ from rfl) (enough s₂.toValid)
  refine ⟨set', ?_, comp, t', s', same⟩
  unfold cosetMinus
  rw [begins s₂.toValid, ok_bind]
  exact run

/-- A set can be taken from itself if it is empty. -/
theorem cosetMinus_ran (hc : Consistent set.fnComp) (s : Sound set t) {set' : Coset α}
    (run : cosetMinus set none = .ok set') : set.size = 0 := by
  rw [s.size, Int.natCast_eq_zero, List.length_eq_zero_iff]
  unfold cosetMinus at run
  rw [Option.getD_none, begins s.toValid, ok_bind] at run
  cases order : t.entries with
  | nil => rfl
  | cons e rest =>
      rw [order, List.head?_cons] at run
      exact absurd run (minusLoop_same (fuel set) hc s order set')

theorem cosetMinus_same (hc : Consistent set.fnComp) (s : Sound set t) :
    MinusRight set none ↔ set.size = 0 := by
  constructor
  · intro right
    obtain ⟨set', run, -⟩ := right _ _ (represents s) (represents s)
    exact cosetMinus_ran hc s run
  · intro empty l m rep rep₂
    obtain rfl := rep.unique (represents s)
    rw [s.size, Int.natCast_eq_zero, List.length_eq_zero_iff] at empty
    have nothing : contents t = [] := by rw [contents, empty, List.map_nil]
    refine ⟨set, ?_, rfl, ?_⟩
    · unfold cosetMinus
      rw [Option.getD_none, begins s.toValid, ok_bind, empty]
      unfold fuel
      rfl
    · rw [nothing, difference, List.filter_nil, ← nothing]
      exact represents s

theorem cosetIntersect_eq (s : Sound set t) : cosetIntersect set other =
    intersectLoop other (fuel set) set (toNode t.entries.head?) := by
  unfold cosetIntersect
  rw [begins s.toValid, ok_bind]

/-- An intersection that returned met no dangling pointer. -/
theorem cosetIntersect_spared (hc : Consistent set.fnComp) (s : Sound set t)
    (alike : Alike set other) {set' : Coset α} (run : cosetIntersect set other = .ok set') :
    Spared set other := by
  rw [cosetIntersect_eq s] at run
  intro l m rep rep₂
  obtain rfl := rep.unique (represents s)
  cases other with
  | none =>
      obtain rfl := rep₂.unique (represents s)
      have nothing : difference set.fnComp (contents t) (contents t) = [] :=
        List.filter_eq_nil_iff.mpr fun x hx no =>
          of_decide_eq_true no ⟨x, hx, same_refl hc x⟩
      rw [nothing]
      trivial
  | some set₂ =>
      obtain ⟨comp, t₂, s₂⟩ := alike set₂ rfl
      obtain rfl := rep₂.unique (represents s₂)
      exact (intersectLoop_spec (fuel set) hc s s₂ comp (show t.entries = [] ++ _ from rfl)
        (enough s.toValid)).2 set' run

theorem cosetIntersect_right (hc : Consistent set.fnComp) (s : Sound set t)
    (alike : Alike set other) (spared : Spared set other) : IntersectRight set other := by
  intro l m rep rep₂
  have peels := spared l m rep rep₂
  obtain rfl := rep.unique (represents s)
  rw [cosetIntersect_eq s]
  cases other with
  | none =>
      obtain rfl := rep₂.unique (represents s)
      have whole : common set.fnComp (contents t) (contents t) = contents t :=
        List.filter_eq_self.mpr fun x hx => decide_eq_true ⟨x, hx, same_refl hc x⟩
      rw [whole]
      exact ⟨set, intersectLoop_same (fuel set) hc s (show t.entries = [] ++ _ from rfl)
        (enough s.toValid), rfl, represents s⟩
  | some set₂ =>
      obtain ⟨comp, t₂, s₂⟩ := alike set₂ rfl
      obtain rfl := rep₂.unique (represents s₂)
      obtain ⟨set', t', run, s', comp', same⟩ :=
        (intersectLoop_spec (fuel set) hc s s₂ comp (show t.entries = [] ++ _ from rfl)
          (enough s.toValid)).1 peels
      exact ⟨set', run, comp', t', s', same⟩

end Operations

/-- What the interface makes of a new set. -/
inductive Reachable (cmp : α → α → Int) : Coset α → Prop where
  | new : Reachable cmp (cosetNew cmp)
  | add {set set' x} : Reachable cmp set → cosetAdd set x = .ok set' → Reachable cmp set'
  | delete {set set' x} : Reachable cmp set → cosetDelete set x = .ok set' → Reachable cmp set'
  | clear {set set'} : Reachable cmp set → cosetClear set = .ok set' → Reachable cmp set'
  | union {set other set'} : Reachable cmp set →
      (∀ set₂, other = some set₂ → Reachable cmp set₂) → cosetUnion set other = .ok set' →
      Reachable cmp set'
  | intersect {set other set'} : Reachable cmp set →
      (∀ set₂, other = some set₂ → Reachable cmp set₂) → cosetIntersect set other = .ok set' →
      Reachable cmp set'
  | minus {set other set'} : Reachable cmp set →
      (∀ set₂, other = some set₂ → Reachable cmp set₂) → cosetMinus set other = .ok set' →
      Reachable cmp set'

theorem Reachable.sound (hc : Consistent cmp) (h : Reachable cmp set) :
    set.fnComp = cmp ∧ ∃ t, Sound set t := by
  have alike : ∀ {set : Coset α} {other : Option (Coset α)}, set.fnComp = cmp →
      (∀ set₂, other = some set₂ → set₂.fnComp = cmp ∧ ∃ t, Sound set₂ t) → Alike set other := by
    intro set other comp second set₂ same
    obtain ⟨comp₂, t₂, s₂⟩ := second set₂ same
    exact ⟨comp₂.trans comp.symm, t₂, s₂⟩
  have second : ∀ {set : Coset α} {t : ATree α} {other : Option (Coset α)}, Sound set t →
      (∀ set₂, other = some set₂ → set₂.fnComp = cmp ∧ ∃ t, Sound set₂ t) →
      ∃ t₂, Sound (other.getD set) t₂ := by
    intro set t other s second
    cases other with
    | none => exact ⟨t, s⟩
    | some set₂ => exact (second set₂ rfl).2
  induction h with
  | new => exact ⟨rfl, .leaf, cosetNew_sound cmp⟩
  | add h run ih =>
      obtain ⟨rfl, t, s⟩ := ih
      obtain ⟨comp, t', s', -⟩ := (cosetAdd_sound hc s _).of_ok run
      exact ⟨comp, t', s'⟩
  | delete h run ih =>
      obtain ⟨rfl, t, s⟩ := ih
      obtain ⟨set', t', ran, s', comp, -⟩ := cosetDelete_contents hc s _
      cases ran.symm.trans run
      exact ⟨comp, t', s'⟩
  | clear h run ih =>
      obtain ⟨rfl, t, s⟩ := ih
      obtain ⟨set', ran, s', comp, -⟩ := cosetClear_spec hc s
      cases ran.symm.trans run
      exact ⟨comp, .leaf, s'⟩
  | union h h₂ run ih ih₂ =>
      obtain ⟨rfl, t, s⟩ := ih
      obtain ⟨t₂, s₂⟩ := second s ih₂
      have right := cosetUnion_right hc s (alike rfl ih₂) _ _ (represents s) (represents s₂)
      obtain ⟨comp, l, ⟨t', s', -⟩, -⟩ := right.of_ok run
      exact ⟨comp, t', s'⟩
  | intersect h h₂ run ih ih₂ =>
      obtain ⟨rfl, t, s⟩ := ih
      obtain ⟨t₂, s₂⟩ := second s ih₂
      have spared := cosetIntersect_spared hc s (alike rfl ih₂) run
      obtain ⟨set', ran, comp, t', s', -⟩ :=
        cosetIntersect_right hc s (alike rfl ih₂) spared _ _ (represents s) (represents s₂)
      cases ran.symm.trans run
      exact ⟨comp, t', s'⟩
  | @minus set other set' h h₂ run ih ih₂ =>
      obtain ⟨rfl, t, s⟩ := ih
      obtain ⟨t₂, s₂⟩ := second s ih₂
      have right : MinusRight set other := by
        cases other with
        | none => exact (cosetMinus_same hc s).mpr (cosetMinus_ran hc s run)
        | some set₂ => exact cosetMinus_right hc s
      obtain ⟨set'', ran, comp, t', s', -⟩ := right _ _ (represents s) (represents s₂)
      cases ran.symm.trans run
      exact ⟨comp, t', s'⟩

theorem Reachable.alike (hc : Consistent cmp) (h : Reachable cmp set) {other : Option (Coset α)}
    (h₂ : ∀ set₂, other = some set₂ → Reachable cmp set₂) : Alike set other := by
  intro set₂ same
  obtain ⟨comp₂, t₂, s₂⟩ := (h₂ set₂ same).sound hc
  exact ⟨comp₂.trans (h.sound hc).1.symm, t₂, s₂⟩

theorem Reachable.adds (h : Reachable cmp set) (xs : List α) {set' : Coset α}
    (run : xs.foldlM cosetAdd set = .ok set') : Reachable cmp set' := by
  induction xs generalizing set with
  | nil =>
      cases run
      exact h
  | cons x xs ih =>
      rw [List.foldlM_cons] at run
      cases added : cosetAdd set x with
      | error f =>
          rw [added] at run
          cases run
      | ok set₁ =>
          rw [added, ok_bind] at run
          exact ih (.add h added) run

/-- `coset_intersect` computes the intersection, with no access to a freed node, just when
the elements it leaves out can be deleted one by one in increasing order, each from a node
with at most one child. -/
theorem coset_intersect_exact (cmp : α → α → Int) (hc : Consistent cmp) (set : Coset α)
    (other : Option (Coset α)) (h : Reachable cmp set)
    (h₂ : ∀ set₂, other = some set₂ → Reachable cmp set₂) :
    IntersectRight set other ↔ Spared set other := by
  obtain ⟨rfl, t, s⟩ := h.sound hc
  have alike := h.alike hc h₂
  refine ⟨fun right => ?_, cosetIntersect_right hc s alike⟩
  have second : ∃ t₂, Sound (other.getD set) t₂ := by
    cases other with
    | none => exact ⟨t, s⟩
    | some set₂ => exact (alike set₂ rfl).2
  obtain ⟨t₂, s₂⟩ := second
  obtain ⟨set', run, -⟩ := right _ _ (represents s) (represents s₂)
  exact cosetIntersect_spared hc s alike run

/-- `{1, 2, 3}` without `{1, 2}`: the one element that goes is in a leaf. -/
theorem coset_intersect_exact_integers : ∃ set set₂ : Coset Int,
    [2, 1, 3].foldlM cosetAdd (cosetNew fun x y => x - y) = .ok set ∧
    [1, 2].foldlM cosetAdd (cosetNew fun x y => x - y) = .ok set₂ ∧
    IntersectRight set (some set₂) := by
  refine ⟨_, _, rfl, rfl, ?_⟩
  have h := Reachable.adds (@Reachable.new Int fun x y => x - y) [2, 1, 3] rfl
  have h₂ := Reachable.adds (@Reachable.new Int fun x y => x - y) [1, 2] rfl
  have both : ∀ set₂, some _ = some set₂ → Reachable (fun x y : Int => x - y) set₂ :=
    fun set₂ same => Option.some.inj same ▸ h₂
  obtain ⟨-, t, s⟩ := h.sound consistent_sub
  refine (coset_intersect_exact _ consistent_sub _ _ h both).mpr ?_
  exact cosetIntersect_spared consistent_sub s (h.alike consistent_sub both) rfl

/-- `{1, 2, 3}` with its root in the middle, and `{1, 3}`: the deletion of the root frees the
node the loop has kept for its next step. -/
theorem coset_intersect_dangling : ∃ set set₂ : Coset Int,
    Reachable (fun x y => x - y) set ∧ Reachable (fun x y => x - y) set₂ ∧
    [2, 1, 3].foldlM cosetAdd (cosetNew fun x y => x - y) = .ok set ∧
    [1, 3].foldlM cosetAdd (cosetNew fun x y => x - y) = .ok set₂ ∧
    cosetIntersect set (some set₂) = .error .badPointer ∧ ¬ IntersectRight set (some set₂) := by
  have h := Reachable.adds (@Reachable.new Int fun x y => x - y) [2, 1, 3] rfl
  have h₂ := Reachable.adds (@Reachable.new Int fun x y => x - y) [1, 3] rfl
  refine ⟨_, _, h, h₂, rfl, rfl, rfl, fun right => ?_⟩
  obtain ⟨-, t, s⟩ := h.sound consistent_sub
  obtain ⟨-, t₂, s₂⟩ := h₂.sound consistent_sub
  obtain ⟨set', run, -⟩ := right _ _ (represents s) (represents s₂)
  cases run

/-- `coset_union` and `coset_minus` compute the union and the difference, with no access to
a freed node, just when the two arguments are different sets or the set is empty. -/
theorem coset_union_minus_exact (cmp : α → α → Int) (hc : Consistent cmp) (set : Coset α)
    (other : Option (Coset α)) (h : Reachable cmp set)
    (h₂ : ∀ set₂, other = some set₂ → Reachable cmp set₂) :
    (UnionRight set other ∧ MinusRight set other) ↔ (other = none → set.size = 0) := by
  obtain ⟨rfl, t, s⟩ := h.sound hc
  have union := cosetUnion_right hc s (h.alike hc h₂)
  cases other with
  | none =>
      rw [cosetMinus_same hc s]
      exact ⟨fun right _ => right.2, fun empty => ⟨union, empty rfl⟩⟩
  | some set₂ => exact iff_of_true ⟨union, cosetMinus_right hc s⟩ nofun

/-- Two sets of integers with a common element. -/
theorem coset_union_minus_exact_integers : ∃ set set₂ : Coset Int,
    [2, 1, 3].foldlM cosetAdd (cosetNew fun x y => x - y) = .ok set ∧
    [5, 2].foldlM cosetAdd (cosetNew fun x y => x - y) = .ok set₂ ∧
    UnionRight set (some set₂) ∧ MinusRight set (some set₂) := by
  refine ⟨_, _, rfl, rfl, ?_⟩
  have h := Reachable.adds (@Reachable.new Int fun x y => x - y) [2, 1, 3] rfl
  have h₂ := Reachable.adds (@Reachable.new Int fun x y => x - y) [5, 2] rfl
  exact (coset_union_minus_exact _ consistent_sub _ _ h
    fun set₂ same => Option.some.inj same ▸ h₂).mpr nofun

/-- A set of one element and the same set again: the deletion frees the node the loop
stands on. -/
theorem coset_minus_dangling : ∃ set : Coset Int, Reachable (fun x y => x - y) set ∧
    [1].foldlM cosetAdd (cosetNew fun x y => x - y) = .ok set ∧
    cosetMinus set none = .error .badPointer ∧ ¬ MinusRight set none := by
  have h := Reachable.adds (@Reachable.new Int fun x y => x - y) [1] rfl
  refine ⟨_, h, rfl, rfl, fun right => ?_⟩
  obtain ⟨-, t, s⟩ := h.sound consistent_sub
  obtain ⟨set', run, -⟩ := right _ _ (represents s) (represents s)
  cases run

end Colinlib.Guarantees.SetAlgebra
