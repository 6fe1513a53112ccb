import Colinlib.Source.LinkedList
import Colinlib.Theory.NamedList

/-!
# The linked list refines a list of named entries

Nodes are the names. Every sequence of calls that works at the ends and at nodes of the list
is served as the abstract list serves it, and the list can be traversed both ways after it.
-/
namespace Colinlib.Guarantees.LinkedList
open Colinlib.Theory.CMemory Colinlib.Theory.Chains Colinlib.Theory.NamedList
open Colinlib.Source.LinkedList

variable {α : Type} {list : Colist α} {xs ys l r : List (Nat × α)} {a n : Nat} {d x : α}

/-- The allocated nodes are those of the list, linked in its order. -/
structure Holds (list : Colist α) (xs : List (Nat × α)) : Prop where
  links : (linksOf list).Holds (names xs)
  data : ∀ y ∈ xs, dataOf list y.1 = some y.2
  only : ∀ a, Alloc list a → a ∈ names xs

theorem Holds.alloc (h : Holds list xs) (there : n ∈ names xs) : Alloc list n := by
  obtain ⟨y, hy, rfl⟩ := List.mem_map.mp there
  unfold Alloc
  rw [h.data y hy]
  nofun

theorem Holds.once (h : Holds list xs) : (names xs).Nodup := Chain.nodup h.links.forward

theorem Holds.free (h : Holds list xs) (new : a ∉ names xs) : dataOf list a = none :=
  not_not.mp fun used => new (h.only a used)

theorem Holds.split (h : Holds list (l ++ (n, d) :: r)) :
    (linksOf list).Holds (names l ++ n :: names r) := by
  have links := h.links
  rw [names_append, names_cons] at links
  exact links

/-- The nodes beside a node of the list are nodes of the list. -/
theorem Holds.prev_alloc (h : Holds list (l ++ (n, d) :: r)) :
    ∀ p, (linksOf list).prev n = some p → Alloc list p := by
  intro p before
  rw [Double.prev_eq h.split] at before
  have there := List.mem_of_getLast? before
  exact h.alloc (by simp [there])

theorem Holds.next_alloc (h : Holds list (l ++ (n, d) :: r)) :
    ∀ p, (linksOf list).next n = some p → Alloc list p := by
  intro p after
  rw [Double.next_eq h.split] at after
  have there := List.mem_of_head? after
  exact h.alloc (by simp [there])

/-- A node is put into a gap. -/
theorem Holds.insert {list' : Colist α} (h : Holds list (l ++ r)) (new : a ∉ names (l ++ r))
    (links : linksOf list' = (linksOf list).insert a (names l).getLast? (names r).head?)
    (data : dataOf list' = Function.update (dataOf list) a (some x)) :
    Holds list' (l ++ (a, x) :: r) where
  links := by
    have before := h.links
    rw [names_append] at before new
    rw [links, names_append, names_cons]
    exact before.insert new
  data := by
    intro y hy
    rw [data]
    by_cases same : y.1 = a
    · rcases List.mem_append.mp hy with hl | hr
      · exact absurd (List.mem_map_of_mem (List.mem_append_left r hl)) (same ▸ new)
      · rcases List.mem_cons.mp hr with rfl | hr
        · exact Function.update_self _ _ _
        · exact absurd (List.mem_map_of_mem (List.mem_append_right l hr)) (same ▸ new)
    · rw [Function.update_of_ne same]
      refine h.data y ?_
      rcases List.mem_append.mp hy with hl | hr
      · exact List.mem_append_left _ hl
      · rcases List.mem_cons.mp hr with rfl | hr
        · exact absurd rfl same
        · exact List.mem_append_right _ hr
  only := by
    intro b used
    unfold Alloc at used
    rw [data] at used
    simp only [names_append, names_cons, List.mem_append, List.mem_cons]
    by_cases same : b = a
    · exact .inr (.inl same)
    · rw [Function.update_of_ne same] at used
      have there := h.only b used
      rw [names_append, List.mem_append] at there
      exact there.imp_right .inr

/-- A node is taken out and freed. -/
theorem Holds.remove {list' : Colist α} (h : Holds list (l ++ (n, d) :: r))
    (links : (linksOf list').Holds (names (l ++ r)))
    (data : dataOf list' = dataOf list) : Holds (release list' n) (l ++ r) := by
  have once := h.once
  have out : n ∉ names (l ++ r) := by
    rw [names_append] at once ⊢
    exact (List.nodup_cons.mp (List.nodup_middle.mp once)).1
  constructor
  · rw [linksOf_release]
    exact links.forget out
  · intro y hy
    have other : y.1 ≠ n := fun same => out (same ▸ List.mem_map_of_mem hy)
    rw [dataOf_release, data, Function.update_of_ne other]
    refine h.data y ?_
    rcases List.mem_append.mp hy with hl | hr
    · exact List.mem_append_left _ hl
    · exact List.mem_append_right _ (List.mem_cons_of_mem _ hr)
  · intro b used
    unfold Alloc at used
    rw [dataOf_release, data] at used
    have other : b ≠ n := by
      rintro rfl
      exact used (Function.update_self _ _ _)
    rw [Function.update_of_ne other] at used
    have there := h.only b used
    simp only [names_append, names_cons, List.mem_append, List.mem_cons] at there ⊢
    exact there.imp_right fun hr => hr.resolve_left other

/-- A new node is allocated, and so are those that were. -/
theorem Holds.grown {list' : Colist α} (h : Holds list xs) (new : a ∉ names xs)
    (data : dataOf list' = Function.update (dataOf list) a (some x)) :
    Alloc list' a ∧ ∀ b ∈ names xs, Alloc list' b := by
  unfold Alloc
  rw [data, Function.update_self]
  refine ⟨nofun, fun b there => ?_⟩
  have other : b ≠ a := fun same => new (same ▸ there)
  rw [Function.update_of_ne other]
  exact h.alloc there

theorem colistPushHead_spec (h : Holds list xs) (new : a ∉ names xs) (x : α) :
    ∃ list', colistPushHead list a x = .ok list' ∧ Holds list' ((a, x) :: xs) := by
  obtain ⟨list₁, made, links₁, data₁⟩ := newNode_spec (h.free new) x
  have head₁ : list₁.head = list.head := congrArg Links.head links₁
  have start : list.head = (names xs).head? := Chain.start_eq h.links.forward
  obtain ⟨here, others⟩ := h.grown new data₁
  unfold colistPushHead
  rw [made, ok_bind, head₁]
  cases head : list.head with
  | none =>
      refine ⟨_, rfl, Holds.insert (l := []) h new ?_ data₁⟩
      rw [← start, head]
      change { linksOf list₁ with head := some a, tail := some a } = _
      rw [links₁]
      rfl
  | some b =>
      obtain ⟨list₂, ran₂, links₂, data₂⟩ := setNext_spec here (some b)
      obtain ⟨list₃, ran₃, links₃, data₃⟩ :=
        setPrev_spec ((others b (h.links.head_mem head)).of_data data₂) (some a)
      refine ⟨{ list₃ with head := some a }, ?_, Holds.insert (l := []) h new ?_ ?_⟩
      · simp only [ran₂, ok_bind, ran₃]
      · rw [← start, head]
        change { linksOf list₃ with head := some a } = _
        rw [links₃, links₂, links₁]
        simp [Links.setPrev, Links.setNext, Links.insert, bypass]
      · exact (data₃.trans data₂).trans data₁

theorem colistPushTail_spec (h : Holds list xs) (new : a ∉ names xs) (x : α) :
    ∃ list', colistPushTail list a x = .ok list' ∧ Holds list' (xs ++ [(a, x)]) := by
  obtain ⟨list₁, made, links₁, data₁⟩ := newNode_spec (h.free new) x
  have tail₁ : list₁.tail = list.tail := congrArg Links.tail links₁
  have start : list.tail = (names xs).getLast? := by
    rw [← List.head?_reverse]
    exact Chain.start_eq h.links.backward
  have whole : Holds list (xs ++ []) := by rwa [List.append_nil]
  have new' : a ∉ names (xs ++ []) := by rwa [List.append_nil]
  obtain ⟨here, others⟩ := h.grown new data₁
  unfold colistPushTail
  rw [made, ok_bind, tail₁]
  cases tail : list.tail with
  | none =>
      refine ⟨_, rfl, whole.insert new' ?_ data₁⟩
      rw [← start, tail]
      change { linksOf list₁ with head := some a, tail := some a } = _
      rw [links₁]
      rfl
  | some b =>
      obtain ⟨list₂, ran₂, links₂, data₂⟩ := setPrev_spec here (some b)
      obtain ⟨list₃, ran₃, links₃, data₃⟩ :=
        setNext_spec ((others b (h.links.tail_mem tail)).of_data data₂) (some a)
      refine ⟨{ list₃ with tail := some a }, ?_, whole.insert new' ?_ ?_⟩
      · simp only [ran₂, ok_bind, ran₃]
      · rw [← start, tail]
        change { linksOf list₃ with tail := some a } = _
        rw [links₃, links₂, links₁]
        simp [Links.setPrev, Links.setNext, Links.insert, bypass]
      · exact (data₃.trans data₂).trans data₁

theorem pushBefore_spec {list₁ : Colist α} (h : Holds list (l ++ (n, d) :: r))
    (new : a ∉ names (l ++ (n, d) :: r))
    (links₁ : linksOf list₁ = ((linksOf list).setPrev a none).setNext a none)
    (data₁ : dataOf list₁ = Function.update (dataOf list) a (some x)) :
    ∃ list', pushBefore list₁ n a = .ok list' ∧ Holds list' (l ++ (a, x) :: (n, d) :: r) := by
  obtain ⟨here, others⟩ := h.grown new data₁
  have place := others n (by simp)
  have other : n ≠ a := fun same => new (by simp [same])
  have prev := Double.prev_eq h.split
  obtain ⟨list₂, ran₂, links₂, data₂⟩ := setNext_spec here (some n)
  obtain ⟨this₂, read₂, prev₂, -⟩ := (place.of_data data₂).node
  obtain ⟨list₃, ran₃, links₃, data₃⟩ := setPrev_spec (here.of_data data₂) this₂.prev
  obtain ⟨this₃, read₃, prev₃, -⟩ := ((place.of_data data₂).of_data data₃).node
  have same₂ : this₂.prev = (names l).getLast? := by
    rw [prev₂, links₂, links₁, ← prev]
    simp [Links.setPrev, Links.setNext, Function.update_of_ne other]
  have same₃ : this₃.prev = (names l).getLast? := by
    rw [prev₃, links₃, links₂, links₁, ← prev]
    simp [Links.setPrev, Links.setNext, Function.update_of_ne other]
  have near : ∀ p, this₃.prev = some p → Alloc list₃ p := by
    intro p before
    refine ((others p ?_).of_data data₂).of_data data₃
    rw [same₃] at before
    simp [List.mem_of_getLast? before]
  obtain ⟨list₄, ran₄, links₄, data₄⟩ := setNextIf_spec near (some a)
  obtain ⟨list₅, ran₅, links₅, data₅⟩ :=
    setPrev_spec (((place.of_data data₂).of_data data₃).of_data data₄) (some a)
  have data : dataOf list₅ = Function.update (dataOf list) a (some x) :=
    (((data₅.trans data₄).trans data₃).trans data₂).trans data₁
  have head₅ : list₅.head = list.head := by
    have head := congrArg Links.head links₅
    rw [links₄, links₃, links₂, links₁] at head
    exact head
  have links : linksOf (if list₅.head = some n then { list₅ with head := some a } else list₅) =
      (linksOf list).insert a (names l).getLast? (some n) := by
    have first : list₅.head = some n ↔ (names l).getLast? = none := by
      rw [head₅, List.getLast?_eq_none_iff]
      exact h.split.head_iff
    have kept : linksOf list₅ = { (linksOf list).insert a (names l).getLast? (some n) with
        head := (linksOf list).head } := by
      rw [links₅, links₄, links₃, links₂, links₁, same₂, same₃]
      simp [Links.setPrev, Links.setNext, Links.insert, bypass]
    by_cases head : list₅.head = some n
    · rw [if_pos head]
      change { linksOf list₅ with head := some a } = _
      rw [kept, Links.insert, if_pos (first.mp head)]
    · rw [if_neg head, kept, Links.insert, if_neg (first.not.mp head)]
  refine ⟨_, ?_, h.insert new (by simpa using links) ?_⟩
  · simp only [pushBefore, ran₂, read₂, ran₃, read₃, ran₄, ran₅, ok_bind]
  · split
    · exact data
    · exact data

theorem pushAfter_spec {list₁ : Colist α} (h : Holds list (l ++ (n, d) :: r))
    (new : a ∉ names (l ++ (n, d) :: r))
    (links₁ : linksOf list₁ = ((linksOf list).setPrev a none).setNext a none)
    (data₁ : dataOf list₁ = Function.update (dataOf list) a (some x)) :
    ∃ list', pushAfter list₁ n a = .ok list' ∧ Holds list' (l ++ (n, d) :: (a, x) :: r) := by
  obtain ⟨here, others⟩ := h.grown new data₁
  have place := others n (by simp)
  have other : n ≠ a := fun same => new (by simp [same])
  have next := Double.next_eq h.split
  obtain ⟨list₂, ran₂, links₂, data₂⟩ := setPrev_spec here (some n)
  obtain ⟨this₂, read₂, -, next₂, -⟩ := (place.of_data data₂).node
  obtain ⟨list₃, ran₃, links₃, data₃⟩ := setNext_spec (here.of_data data₂) this₂.next
  obtain ⟨this₃, read₃, -, next₃, -⟩ := ((place.of_data data₂).of_data data₃).node
  have same₂ : this₂.next = (names r).head? := by
    rw [next₂, links₂, links₁, ← next]
    simp [Links.setPrev, Links.setNext, Function.update_of_ne other]
  have same₃ : this₃.next = (names r).head? := by
    rw [next₃, links₃, links₂, links₁, ← next]
    simp [Links.setPrev, Links.setNext, Function.update_of_ne other]
  have near : ∀ p, this₃.next = some p → Alloc list₃ p := by
    intro p after
    refine ((others p ?_).of_data data₂).of_data data₃
    rw [same₃] at after
    simp [List.mem_of_head? after]
  obtain ⟨list₄, ran₄, links₄, data₄⟩ := setPrevIf_spec near (some a)
  obtain ⟨list₅, ran₅, links₅, data₅⟩ :=
    setNext_spec (((place.of_data data₂).of_data data₃).of_data data₄) (some a)
  have data : dataOf list₅ = Function.update (dataOf list) a (some x) :=
    (((data₅.trans data₄).trans data₃).trans data₂).trans data₁
  have tail₅ : list₅.tail = list.tail := by
    have tail := congrArg Links.tail links₅
    rw [links₄, links₃, links₂, links₁] at tail
    exact tail
  have links : linksOf (if list₅.tail = some n then { list₅ with tail := some a } else list₅) =
      (linksOf list).insert a (some n) (names r).head? := by
    have last : list₅.tail = some n ↔ (names r).head? = none := by
      rw [tail₅, List.head?_eq_none_iff]
      exact h.split.tail_iff
    have kept : linksOf list₅ = { (linksOf list).insert a (some n) (names r).head? with
        tail := (linksOf list).tail } := by
      rw [links₅, links₄, links₃, links₂, links₁, same₂, same₃]
      simp [Links.setPrev, Links.setNext, Links.insert, bypass]
    by_cases tail : list₅.tail = some n
    · rw [if_pos tail]
      change { linksOf list₅ with tail := some a } = _
      rw [kept, Links.insert, if_pos (last.mp tail)]
    · rw [if_neg tail, kept, Links.insert, if_neg (last.not.mp tail)]
  have gap : l ++ (n, d) :: r = (l ++ [(n, d)]) ++ r := by simp
  have result : l ++ (n, d) :: (a, x) :: r = (l ++ [(n, d)]) ++ (a, x) :: r := by simp
  rw [gap] at h new
  rw [result]
  refine ⟨_, ?_, h.insert new (by simpa using links) ?_⟩
  · simp only [pushAfter, ran₂, read₂, ran₃, read₃, ran₄, ran₅, ok_bind]
  · split
    · exact data
    · exact data

theorem colistPushAt_spec (h : Holds list (l ++ (n, d) :: r))
    (new : a ∉ names (l ++ (n, d) :: r)) (x : α) (before : Bool) :
    ∃ list', colistPushAt list (some n) a x before = .ok list' ∧ Holds list'
      (if before then l ++ (a, x) :: (n, d) :: r else l ++ (n, d) :: (a, x) :: r) := by
  obtain ⟨list₁, made, links₁, data₁⟩ := newNode_spec (h.free new) x
  unfold colistPushAt
  simp only [made, ok_bind]
  cases before with
  | true => exact pushBefore_spec h new links₁ data₁
  | false => exact pushAfter_spec h new links₁ data₁

/-- A node of the list can be cut at the head, and its neighbours stay nodes. -/
theorem leaveHead_spec (h : Alloc list n)
    (near : ∀ p, (linksOf list).next n = some p → Alloc list p) :
    ∃ list', leaveHead list n = .ok list' ∧ linksOf list' = (linksOf list).cutHead n ∧
      dataOf list' = dataOf list := by
  obtain ⟨this, read, -, next, -⟩ := h.node
  unfold leaveHead Links.cutHead
  by_cases head : list.head = some n
  · rw [if_pos head, if_pos (show (linksOf list).head = some n from head), read]
    simp only [ok_bind, next]
    exact @setPrevIf_spec α { list with head := (linksOf list).next n } _ near none
  · rw [if_neg head, if_neg (show ¬ (linksOf list).head = some n from head)]
    exact ⟨list, rfl, rfl, rfl⟩

theorem leaveTail_spec (h : Alloc list n)
    (near : ∀ p, (linksOf list).prev n = some p → Alloc list p) :
    ∃ list', leaveTail list n = .ok list' ∧ linksOf list' = (linksOf list).cutTail n ∧
      dataOf list' = dataOf list := by
  obtain ⟨this, read, prev, -⟩ := h.node
  unfold leaveTail Links.cutTail
  by_cases tail : list.tail = some n
  · rw [if_pos tail, if_pos (show (linksOf list).tail = some n from tail), read]
    simp only [ok_bind, prev]
    exact @setNextIf_spec α { list with tail := (linksOf list).prev n } _ near none
  · rw [if_neg tail, if_neg (show ¬ (linksOf list).tail = some n from tail)]
    exact ⟨list, rfl, rfl, rfl⟩

theorem joinNeighbours_spec (h : Alloc list n)
    (before : ∀ p, (linksOf list).prev n = some p → Alloc list p)
    (after : ∀ p, (linksOf list).next n = some p → Alloc list p) :
    ∃ list', joinNeighbours list n = .ok list' ∧ linksOf list' = (linksOf list).skip n ∧
      dataOf list' = dataOf list := by
  obtain ⟨this, read, prev, next, -⟩ := h.node
  rw [← prev] at before
  obtain ⟨list₁, ran₁, links₁, data₁⟩ := setNextIf_spec before this.next
  obtain ⟨this₁, read₁, prev₁, next₁, -⟩ := (h.of_data data₁).node
  rw [prev, next] at links₁
  have skipped : linksOf list₁ = (linksOf list).skipForward n := links₁
  have next₂ : this₁.next = (linksOf list).next n := by
    rw [next₁, skipped, Links.skipForward_next]
  obtain ⟨list₂, ran₂, links₂, data₂⟩ :=
    @setPrevIf_spec α list₁ this₁.next (fun p hp => (after p (next₂ ▸ hp)).of_data data₁) this₁.prev
  refine ⟨list₂, ?_, ?_, data₂.trans data₁⟩
  · simp only [joinNeighbours, read, ok_bind, ran₁, read₁, ran₂]
  · rw [links₂, prev₁, next₁, skipped]
    rfl

theorem colistPopAt_spec (h : Holds list (l ++ (n, d) :: r)) (keep : Bool) :
    ∃ list', colistPopAt list (some n) keep = .ok (true, shown keep (some d), list') ∧
      Holds list' (l ++ r) := by
  have here : Alloc list n := h.alloc (by simp)
  have own : dataOf list n = some d := h.data (n, d) (by simp)
  obtain ⟨list₁, ran₁, links₁, data₁⟩ := leaveHead_spec here h.next_alloc
  have before₁ : ∀ p, (linksOf list₁).prev n = some p → Alloc list₁ p := by
    intro p before
    refine (h.prev_alloc p ?_).of_data data₁
    rw [links₁] at before
    exact Links.cutHead_prev before
  obtain ⟨list₂, ran₂, links₂, data₂⟩ := leaveTail_spec (here.of_data data₁) before₁
  have before₂ : ∀ p, (linksOf list₂).prev n = some p → Alloc list₂ p := by
    intro p before
    refine (before₁ p ?_).of_data data₂
    rwa [links₂, Links.cutTail_prev] at before
  have after₂ : ∀ p, (linksOf list₂).next n = some p → Alloc list₂ p := by
    intro p after
    refine ((h.next_alloc p ?_).of_data data₁).of_data data₂
    rw [links₂, links₁] at after
    have after := Links.cutTail_next after
    rwa [Links.cutHead_next] at after
  obtain ⟨list₃, ran₃, links₃, data₃⟩ :=
    joinNeighbours_spec ((here.of_data data₁).of_data data₂) before₂ after₂
  have data : dataOf list₃ = dataOf list := (data₃.trans data₂).trans data₁
  obtain ⟨this, read, -, -, item⟩ := (here.of_data data).node
  refine ⟨release list₃ n, ?_, h.remove ?_ data⟩
  · have same : this.data = d := by
      rw [data, own] at item
      exact (Option.some.inj item).symm
    cases keep with
    | true =>
        simp only [colistPopAt, ran₁, ran₂, ran₃, read, ok_bind, if_true, shown]
        rw [same]
    | false =>
        simp only [colistPopAt, ran₁, ran₂, ran₃, ok_bind]
        rfl
  · rw [links₃, links₂, links₁, names_append]
    exact h.split.cut

/-- A loop that follows a chain of the list's nodes sees them in the order of the chain. -/
theorem traverse_chain (h : Holds list xs) {link : Node α → Option Nat} {view : Nat → Option Nat}
    (follows : ∀ a node, deref list a = .ok node → link node = view a) {start : Option Nat}
    (chain : Chain view start (names ys)) (part : ys ⊆ xs) {fuel : Nat} (enough : ys.length ≤ fuel) :
    traverse list link fuel start = .ok ys := by
  induction ys generalizing start fuel with
  | nil =>
      cases chain
      cases fuel <;> rfl
  | cons y rest ih =>
      obtain ⟨rfl, chain⟩ := chain
      cases fuel with
      | zero => cases enough
      | succ fuel =>
          have own := h.data y (part List.mem_cons_self)
          have here : Alloc list y.1 := by
            unfold Alloc
            rw [own]
            nofun
          obtain ⟨node, read, -, -, item⟩ := here.node
          rw [own] at item
          rw [← follows y.1 node read] at chain
          have later := ih chain (fun z hz => part (List.mem_cons_of_mem _ hz))
            (Nat.le_of_succ_le_succ enough)
          rw [Source.LinkedList.traverse, read, ok_bind, later, ok_bind, ← Option.some.inj item]

theorem Holds.traverses (h : Holds list xs) {fuel : Nat} (enough : xs.length ≤ fuel) :
    traverse list Node.next fuel list.head = .ok xs ∧
      traverse list Node.prev fuel list.tail = .ok xs.reverse := by
  have read : ∀ a node, deref list a = .ok node →
      node.next = (linksOf list).next a ∧ node.prev = (linksOf list).prev a := by
    intro a node found
    unfold deref at found
    split at found
    · next same =>
        cases found
        simp [linksOf, same]
    · cases found
  constructor
  · exact traverse_chain h (fun a node found => (read a node found).1) h.links.forward
      (fun _ hy => hy) enough
  · refine traverse_chain h (fun a node found => (read a node found).2) ?_
      (fun _ hy => List.mem_reverse.mp hy) (by rwa [List.length_reverse])
    rw [names, List.map_reverse]
    exact h.links.backward

/-- Nothing is before the head, nothing behind the tail, and both are null in an empty list. -/
theorem Holds.ends (h : Holds list xs) :
    (∀ a, list.head = some a → ∃ node, deref list a = .ok node ∧ node.prev = none) ∧
    (∀ a, list.tail = some a → ∃ node, deref list a = .ok node ∧ node.next = none) ∧
    (list.head = none ↔ xs = []) ∧ (list.tail = none ↔ xs = []) := by
  have empty : names xs = [] ↔ xs = [] := List.map_eq_nil_iff
  refine ⟨fun a head => ?_, fun a tail => ?_, ?_, ?_⟩
  · have there : a ∈ names xs := h.links.head_mem head
    obtain ⟨l, d, r, rfl⟩ := exists_split there
    obtain ⟨node, read, prev, -⟩ := (h.alloc there).node
    refine ⟨node, read, ?_⟩
    rw [prev, Double.prev_eq h.split, h.split.head_iff.mp head]
    rfl
  · have there : a ∈ names xs := h.links.tail_mem tail
    obtain ⟨l, d, r, rfl⟩ := exists_split there
    obtain ⟨node, read, -, next, -⟩ := (h.alloc there).node
    refine ⟨node, read, ?_⟩
    rw [next, Double.next_eq h.split, h.split.tail_iff.mp tail]
    rfl
  · exact h.links.empty_iff.trans empty
  · have last : list.tail = (names xs).reverse.head? := Chain.start_eq h.links.backward
    rw [last, List.head?_eq_none_iff, List.reverse_eq_nil_iff]
    exact empty

theorem Holds.nodes_iff (h : Holds list xs) (a : Nat) : (list.nodes a).isSome ↔ a ∈ names xs := by
  have same : Alloc list a ↔ (list.nodes a).isSome := by
    unfold Alloc dataOf
    cases list.nodes a <;> simp
  exact same.symm.trans ⟨h.only a, h.alloc⟩

/-! ## Runs -/

def colistServe (list : Colist α) : Call Nat α → Except Fault (Reply α × Colist α)
  | .pushHead a x => do .ok (.nothing, ← colistPushHead list a x)
  | .pushTail a x => do .ok (.nothing, ← colistPushTail list a x)
  | .pushAt node a x before => do .ok (.nothing, ← colistPushAt list (some node) a x before)
  | .popHead keep => do
    let (done, item, list) ← colistPopHead list keep
    .ok (.popped done item, list)
  | .popTail keep => do
    let (done, item, list) ← colistPopTail list keep
    .ok (.popped done item, list)
  | .popAt node keep => do
    let (done, item, list) ← colistPopAt list node keep
    .ok (.popped done item, list)

def colistRun : Colist α → List (Call Nat α) → Except Fault (List (Reply α) × Colist α)
  | list, [] => .ok ([], list)
  | list, call :: calls => do
    let (out, list) ← colistServe list call
    let (outs, list) ← colistRun list calls
    .ok (out :: outs, list)

theorem colistServe_spec (h : Holds list xs) (call : Call Nat α) (admitted : Admitted xs call) :
    ∃ list', colistServe list call = .ok ((serve xs call).1, list') ∧ Holds list' (serve xs call).2 := by
  cases call with
  | pushHead a x =>
      obtain ⟨list', ran, holds⟩ := colistPushHead_spec h admitted x
      refine ⟨list', ?_, holds⟩
      rw [colistServe, ran]
      rfl
  | pushTail a x =>
      obtain ⟨list', ran, holds⟩ := colistPushTail_spec h admitted x
      refine ⟨list', ?_, holds⟩
      rw [colistServe, ran]
      rfl
  | pushAt node a x before =>
      obtain ⟨l, d, r, rfl⟩ := exists_split admitted.1
      obtain ⟨list', ran, holds⟩ := colistPushAt_spec h admitted.2 x before
      rw [serve_pushAt h.once]
      refine ⟨list', ?_, holds⟩
      rw [colistServe, ran]
      rfl
  | popHead keep =>
      have start : list.head = (names xs).head? := Chain.start_eq h.links.forward
      cases xs with
      | nil =>
          refine ⟨list, ?_, h⟩
          rw [colistServe, colistPopHead, start]
          cases keep <;> rfl
      | cons y r =>
          have split : Holds list ([] ++ (y.1, y.2) :: r) := h
          obtain ⟨list', ran, holds⟩ := colistPopAt_spec split keep
          refine ⟨list', ?_, holds⟩
          rw [colistServe, colistPopHead, start, names_cons, List.head?_cons, ran]
          rfl
  | popTail keep =>
      have last : list.tail = (names xs).reverse.head? := Chain.start_eq h.links.backward
      rcases List.eq_nil_or_concat xs with rfl | ⟨l, y, rfl⟩
      · refine ⟨list, ?_, h⟩
        rw [colistServe, colistPopTail, last]
        cases keep <;> rfl
      · rw [List.concat_eq_append] at *
        have split : Holds list (l ++ (y.1, y.2) :: []) := h
        obtain ⟨list', ran, holds⟩ := colistPopAt_spec split keep
        rw [List.append_nil] at holds
        have served : serve (l ++ [y]) (.popTail keep) = (.popped true (shown keep (some y.2)), l) :=
          serve_popTail keep
        rw [served]
        refine ⟨list', ?_, holds⟩
        rw [colistServe, colistPopTail, last, names_append, List.reverse_append]
        change (colistPopAt list (some y.1) keep >>= _) = _
        rw [ran]
        rfl
  | popAt node keep =>
      cases node with
      | none => exact ⟨list, rfl, h⟩
      | some n =>
          obtain ⟨l, d, r, rfl⟩ := exists_split (admitted n rfl)
          obtain ⟨list', ran, holds⟩ := colistPopAt_spec h keep
          rw [serve_popAt h.once]
          refine ⟨list', ?_, holds⟩
          rw [colistServe, ran]
          rfl

theorem colistRun_spec (h : Holds list xs) (calls : List (Call Nat α))
    (admitted : AdmittedAll xs calls) : ∃ list', colistRun list calls =
      .ok ((serveAll xs calls).1, list') ∧ Holds list' (serveAll xs calls).2 := by
  induction calls generalizing list xs with
  | nil => exact ⟨list, rfl, h⟩
  | cons call rest ih =>
      obtain ⟨list₁, ran, holds⟩ := colistServe_spec h call admitted.1
      obtain ⟨list₂, later, holds₂⟩ := ih holds admitted.2
      refine ⟨list₂, ?_, holds₂⟩
      rw [colistRun, ran, ok_bind]
      simp only [later, ok_bind]
      rfl

theorem colistNew_holds : Holds (colistNew : Colist α) [] where
  links := ⟨rfl, rfl⟩
  data := nofun
  only _ used := absurd rfl used

/-- Calls that work at the ends and at nodes of the list serve the abstract sequence, the nodes
that are allocated are those of the list, and a pop from an empty list changes nothing. -/
theorem colist_refines_sequence (calls : List (Call Nat α)) (admitted : AdmittedAll [] calls) :
    ∃ list, colistRun colistNew calls = .ok ((serveAll [] calls).1, list) ∧
      (∀ fuel, (serveAll [] calls).2.length ≤ fuel →
        traverse list Node.next fuel list.head = .ok (serveAll [] calls).2 ∧
        traverse list Node.prev fuel list.tail = .ok (serveAll [] calls).2.reverse) ∧
      (∀ a, list.head = some a → ∃ node, deref list a = .ok node ∧ node.prev = none) ∧
      (∀ a, list.tail = some a → ∃ node, deref list a = .ok node ∧ node.next = none) ∧
      (list.head = none ↔ (serveAll [] calls).2 = []) ∧
      (list.tail = none ↔ (serveAll [] calls).2 = []) ∧
      (∀ a, (list.nodes a).isSome ↔ a ∈ names (serveAll [] calls).2) ∧
      ((serveAll [] calls).2 = [] → ∀ keep,
        colistPopHead list keep = .ok (false, none, list) ∧
        colistPopTail list keep = .ok (false, none, list)) := by
  obtain ⟨list, ran, holds⟩ := colistRun_spec colistNew_holds calls admitted
  obtain ⟨first, last, head, tail⟩ := holds.ends
  refine ⟨list, ran, fun _ enough => holds.traverses enough, first, last, head, tail,
    holds.nodes_iff, fun empty keep => ⟨?_, ?_⟩⟩
  · rw [colistPopHead, head.mpr empty, colistPopAt]
  · rw [colistPopTail, tail.mpr empty, colistPopAt]

/-- Between the ends, at both sides of a node, and with an address that is used again. -/
theorem colist_refines_sequence_reuse :
    AdmittedAll [] [Call.pushTail 1 'a', .pushHead 2 'b', .pushAt 1 3 'c' true, .popAt (some 1) true,
      .pushAt 2 1 'd' false, .popTail true, .popHead false] ∧
    ∃ list, colistRun colistNew [Call.pushTail 1 'a', .pushHead 2 'b', .pushAt 1 3 'c' true,
        .popAt (some 1) true, .pushAt 2 1 'd' false, .popTail true, .popHead false] =
          .ok ([.nothing, .nothing, .nothing, .popped true (some 'a'), .nothing,
            .popped true (some 'c'), .popped true none], list) ∧
      traverse list Node.next 1 list.head = .ok [(1, 'd')] := by
  have admitted : AdmittedAll [] [Call.pushTail 1 'a', .pushHead 2 'b', .pushAt 1 3 'c' true,
      .popAt (some 1) true, .pushAt 2 1 'd' false, .popTail true, .popHead false] := by decide
  obtain ⟨list, ran, walks, -⟩ := colist_refines_sequence _ admitted
  exact ⟨admitted, list, ran, (walks 1 (by decide)).1⟩

end Colinlib.Guarantees.LinkedList
