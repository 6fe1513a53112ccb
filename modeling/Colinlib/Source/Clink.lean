import Colinlib.Theory.CMemory
import Colinlib.Theory.Links

/-!
# The circular links (`co_clink.h`)

Each function is its sequence of field reads and writes on a memory of nullable
links; following a null link is a fault. The specifications give the new
collection of rings and say that no node outside the rings is touched.
-/
namespace Colinlib.Source.Clink
open Colinlib.Theory Colinlib.Theory.CMemory Colinlib.Theory.Links

variable {α : Type}

def deref (p : Option α) : Except Fault α :=
  match p with
  | some a => .ok a
  | none => .error .nullPointer

@[simp] theorem deref_some (a : α) : deref (some a) = .ok a := rfl

variable [DecidableEq α]

def coclinkInit (L : Mem α) (head : α) : Mem α :=
  setNext (setPrev L head (some head)) head (some head)

def coclinkAddFront (L : Mem α) (head node : α) : Except Fault (Mem α) := do
  let L := setPrev L node (some head)
  let L := setNext L node (L.next head)
  let next ← deref (L.next head)
  let L := setPrev L next (some node)
  .ok (setNext L head (some node))

def coclinkAddBack (L : Mem α) (head node : α) : Except Fault (Mem α) := do
  let L := setPrev L node (L.prev head)
  let L := setNext L node (some head)
  let prev ← deref (L.prev node)
  let L := setNext L prev (some node)
  .ok (setPrev L head (some node))

def coclinkIsEmpty (L : Mem α) (head : α) : Bool := some head == L.next head

def coclinkRemote (L : Mem α) (node : α) : Except Fault (Mem α) := do
  let next ← deref (L.next node)
  let L := setPrev L next (L.prev node)
  let prev ← deref (L.prev node)
  let L := setNext L prev (L.next node)
  .ok (coclinkInit L node)

def coclinkSplice (L : Mem α) (head1 head2 : α) : Except Fault (Mem α) :=
  if coclinkIsEmpty L head1 then .ok L else do
    let first ← deref (L.next head1)
    let last := L.prev head1
    let at_ := L.next head2
    let L := setPrev L first (some head2)
    let L := setNext L head2 (some first)
    let lastNode ← deref last
    let L := setNext L lastNode at_
    let atNode ← deref at_
    let L := setPrev L atNode last
    .ok (coclinkInit L head1)

/-- In no ring of the shape, neither as a head nor as a node. -/
def Outside (shape : Shape α) (a : α) : Prop := ∀ h xs, shape h = some xs → a ∉ h :: xs

theorem coclinkInit_next (L : Mem α) (h a : α) :
    (coclinkInit L h).next a = if a = h then some h else L.next a := by
  simp [coclinkInit]

theorem coclinkInit_prev (L : Mem α) (h a : α) :
    (coclinkInit L h).prev a = if a = h then some h else L.prev a := by
  simp [coclinkInit]

theorem coclinkInit_same (L : Mem α) {h a : α} (ne : a ≠ h) : SameAt L (coclinkInit L h) a :=
  ⟨by rw [coclinkInit_next, if_neg ne], by rw [coclinkInit_prev, if_neg ne]⟩

theorem coclinkInit_rings {L : Mem α} {shape : Shape α} {x : α} (rings : Rings L shape)
    (loose : Loose shape x) :
    Rings (coclinkInit L x) (Function.update shape x (some [])) :=
  rings.init loose (coclinkInit_next L x) (coclinkInit_prev L x)

theorem coclinkIsEmpty_iff {L : Mem α} {shape : Shape α} {h : α} {xs : List α}
    (rings : Rings L shape) (hs : shape h = some xs) :
    coclinkIsEmpty L h = true ↔ xs = [] := by
  rw [← (rings.ring hs).next_self_iff, coclinkIsEmpty, beq_iff_eq, eq_comm]

/-- A linked node is not taken for a detached one. -/
theorem coclinkIsEmpty_node {L : Mem α} {shape : Shape α} {h x : α} {xs : List α}
    (rings : Rings L shape) (hs : shape h = some xs) (hx : x ∈ xs) :
    coclinkIsEmpty L x = false := by
  obtain ⟨l, r, rfl⟩ := List.append_of_mem hx
  obtain ⟨ls, p, before⟩ := exists_concat h l
  obtain ⟨s, rs, after⟩ := exists_uncons r h
  obtain ⟨hnext, _, hne⟩ := (rings.ring hs).neighbours before after
  rw [coclinkIsEmpty, hnext, beq_eq_false_iff_ne]
  exact fun h => hne (Option.some.inj h).symm

/-- `coclink_add_back` of a node that is in no other ring appends it. -/
theorem coclinkAddBack_spec {L : Mem α} {shape : Shape α} {h x : α} {xs : List α}
    (rings : Rings L shape) (hs : shape h = some xs) (loose : Loose shape x) (ne : h ≠ x) :
    ∃ L', coclinkAddBack L h x = .ok L' ∧
      Rings L' (Function.update (Function.update shape x none) h (some (xs ++ [x]))) ∧
      (∀ a, Outside shape a → a ≠ x → SameAt L L' a) := by
  obtain ⟨ys, z, cut⟩ := exists_concat h xs
  have hz : L.prev h = some z := (rings.ring hs).prev_head cut
  have hzmem : z ∈ h :: xs := by rw [cut]; simp
  have hzx : z ≠ x := by
    rintro rfl
    exact loose.not_mem hs ne hzmem
  have hrun : ∃ L', coclinkAddBack L h x = .ok L' ∧
      (∀ a, L'.next a = if a = z then some x else if a = x then some h else L.next a) ∧
      (∀ a, L'.prev a = if a = h then some x else if a = x then some z else L.prev a) := by
    simp only [coclinkAddBack, setNext_prev, setPrev_prev, if_true, hz, deref_some, ok_bind]
    exact ⟨_, rfl, fun a => by simp, fun a => by simp⟩
  obtain ⟨L', hL', hnext, hprev⟩ := hrun
  refine ⟨L', hL', rings.append hs loose ne hz hnext hprev, ?_⟩
  intro a out hax
  have hah : a ≠ h := by rintro rfl; exact out a xs hs List.mem_cons_self
  have haz : a ≠ z := by rintro rfl; exact out h xs hs hzmem
  exact ⟨by rw [hnext, if_neg haz, if_neg hax], by rw [hprev, if_neg hah, if_neg hax]⟩

/-- `coclink_add_front` of such a node prepends it. -/
theorem coclinkAddFront_spec {L : Mem α} {shape : Shape α} {h x : α} {xs : List α}
    (rings : Rings L shape) (hs : shape h = some xs) (loose : Loose shape x) (ne : h ≠ x) :
    ∃ L', coclinkAddFront L h x = .ok L' ∧
      Rings L' (Function.update (Function.update shape x none) h (some (x :: xs))) := by
  have first := (rings.ring hs).next_head
  have run : ∃ L', coclinkAddFront L h x = .ok L' ∧
      (∀ a, L'.next a = if a = h then some x else if a = x then some (xs.headD h) else L.next a) ∧
      (∀ a, L'.prev a = if a = xs.headD h then some x else if a = x then some h else L.prev a) := by
    simp only [coclinkAddFront, setNext_next, setPrev_next, if_neg ne, first, deref_some, ok_bind]
    exact ⟨_, rfl, fun a => by simp, fun a => by simp⟩
  obtain ⟨L', hL', hnext, hprev⟩ := run
  exact ⟨L', hL', rings.prepend hs loose ne first hnext hprev⟩

/-- A node that is linked to itself stays so. -/
theorem coclinkRemote_alone {L : Mem α} {x : α} (ring : Ring L x []) :
    ∃ L', coclinkRemote L x = .ok L' ∧ ∀ a, SameAt L L' a := by
  have next : L.next x = some x := ring.next_head
  have prev : L.prev x = some x := ring.prev_head (show [x] = [] ++ [x] from rfl)
  simp only [coclinkRemote, setPrev_prev, setPrev_next, next, prev, deref_some, ok_bind, if_true]
  refine ⟨_, rfl, fun a => ?_⟩
  by_cases here : a = x
  · subst here
    exact ⟨by rw [coclinkInit_next, if_pos rfl, next], by rw [coclinkInit_prev, if_pos rfl, prev]⟩
  · exact ⟨by simp [coclinkInit_next, here], by simp [coclinkInit_prev, here]⟩

/-- `coclink_remote` of a linked node takes exactly that node out of its ring and
leaves it alone in a ring of its own. -/
theorem coclinkRemote_spec {L : Mem α} {shape : Shape α} {h x : α} {l r : List α}
    (rings : Rings L shape) (hs : shape h = some (l ++ x :: r)) :
    ∃ L', coclinkRemote L x = .ok L' ∧
      Rings L' (Function.update (Function.update shape h (some (l ++ r))) x (some [])) ∧
      (∀ a, Outside shape a → SameAt L L' a) := by
  obtain ⟨ls, p, before⟩ := exists_concat h l
  obtain ⟨s, rs, after⟩ := exists_uncons r h
  have hp : p ∈ h :: l := by rw [before]; simp
  have hsm : s ∈ r ++ [h] := by rw [after]; simp
  obtain ⟨hnext, hprev, hsx⟩ := (rings.ring hs).neighbours before after
  have hrun : ∃ L', coclinkRemote L x = .ok L' ∧
      (∀ a, L'.next a = if a = x then some x else if a = p then some s else L.next a) ∧
      (∀ a, L'.prev a = if a = x then some x else if a = s then some p else L.prev a) := by
    simp only [coclinkRemote, hnext, hprev, deref_some, ok_bind, setPrev_prev,
      if_neg (Ne.symm hsx), setPrev_next]
    exact ⟨_, rfl, fun a => by simp [coclinkInit_next], fun a => by simp [coclinkInit_prev]⟩
  obtain ⟨L', hL', hnext, hprev⟩ := hrun
  refine ⟨L', hL', rings.remove hs before after hnext hprev, ?_⟩
  intro a out
  have hout := out h _ hs
  have hax : a ≠ x := by rintro rfl; exact hout (by simp)
  have hap : a ≠ p := by
    rintro rfl
    exact hout (by simp only [List.mem_cons, List.mem_append] at hp ⊢; tauto)
  have has : a ≠ s := by
    rintro rfl
    exact hout (by simp only [List.mem_cons, List.mem_append] at hsm ⊢; tauto)
  exact ⟨by rw [hnext, if_neg hax, if_neg hap], by rw [hprev, if_neg hax, if_neg has]⟩

/-- `coclink_splice` moves all nodes of the first ring to the front of the
second. -/
theorem coclinkSplice_spec {L : Mem α} {shape : Shape α} {h₁ h₂ : α} {xs ys : List α}
    (rings : Rings L shape) (ne : h₁ ≠ h₂) (hs₁ : shape h₁ = some xs)
    (hs₂ : shape h₂ = some ys) :
    ∃ L', coclinkSplice L h₁ h₂ = .ok L' ∧
      Rings L' (Function.update (Function.update shape h₁ (some [])) h₂ (some (xs ++ ys))) ∧
      (∀ a, Outside shape a → SameAt L L' a) := by
  cases hxs : xs with
  | nil =>
      subst hxs
      have empty : coclinkIsEmpty L h₁ = true := (coclinkIsEmpty_iff rings hs₁).mpr rfl
      refine ⟨L, by rw [coclinkSplice, if_pos empty], ?_, fun a _ => ⟨rfl, rfl⟩⟩
      have same₁ : Function.update shape h₁ (some []) = shape :=
        Function.update_eq_self_iff.mpr hs₁.symm
      have same₂ : Function.update shape h₂ (some ys) = shape :=
        Function.update_eq_self_iff.mpr hs₂.symm
      rw [same₁, List.nil_append, same₂]
      exact rings
  | cons first rs =>
      obtain ⟨ls, last, stop⟩ := exists_concat first rs
      obtain ⟨front, fs, into⟩ := exists_uncons ys h₂
      subst hxs
      have empty : ¬ coclinkIsEmpty L h₁ = true := by
        rw [coclinkIsEmpty_iff rings hs₁]
        exact List.cons_ne_nil _ _
      have hfirst : L.next h₁ = some first := (rings.ring hs₁).next_head
      have hlast : L.prev h₁ = some last :=
        Ring.prev_head (rings.ring hs₁)
          (show h₁ :: first :: rs = (h₁ :: ls) ++ [last] by rw [stop]; rfl)
      have hfront : L.next h₂ = some front := by
        rw [(rings.ring hs₂).next_head]
        cases ys with
        | nil => simpa using (List.cons.inj into).1
        | cons b rest => simpa using (List.cons.inj into).1
      have hlastmem : last ∈ first :: rs := by rw [stop]; simp
      have hfrontmem : front ∈ h₂ :: ys := by
        have : front ∈ ys ++ [h₂] := by rw [into]; simp
        simpa [or_comm] using this
      have apart := rings.apart hs₁ hs₂ ne
      have hll : last ≠ h₂ := by
        rintro rfl
        exact apart (List.mem_cons_of_mem _ hlastmem) List.mem_cons_self
      have hff : first ≠ front := by
        rintro rfl
        exact apart (by simp) hfrontmem
      have hrun : ∃ L', coclinkSplice L h₁ h₂ = .ok L' ∧
          (∀ a, L'.next a = if a = h₁ then some h₁ else if a = h₂ then some first
            else if a = last then some front else L.next a) ∧
          (∀ a, L'.prev a = if a = h₁ then some h₁ else if a = first then some h₂
            else if a = front then some last else L.prev a) := by
        simp only [coclinkSplice, if_neg empty, hfirst, hlast, hfront, deref_some, ok_bind]
        refine ⟨_, rfl, fun a => ?_, fun a => ?_⟩
        · by_cases hal : a = last
          · subst hal
            simp [coclinkInit_next, hll]
          · simp [coclinkInit_next, hal]
        · by_cases haf : a = front
          · subst haf
            simp [coclinkInit_prev, Ne.symm hff]
          · simp [coclinkInit_prev, haf]
      obtain ⟨L', hL', hnext, hprev⟩ := hrun
      refine ⟨L', hL', rings.splice ne hs₁ hs₂ rfl stop into hnext hprev, ?_⟩
      intro a out
      have out₁ := out h₁ _ hs₁
      have out₂ := out h₂ _ hs₂
      have n₁ : a ≠ h₁ := by rintro rfl; exact out₁ List.mem_cons_self
      have n₂ : a ≠ h₂ := by rintro rfl; exact out₂ List.mem_cons_self
      have nf : a ≠ first := by rintro rfl; exact out₁ (by simp)
      have nl : a ≠ last := by rintro rfl; exact out₁ (List.mem_cons_of_mem _ hlastmem)
      have nt : a ≠ front := by rintro rfl; exact out₂ hfrontmem
      exact ⟨by rw [hnext, if_neg n₁, if_neg n₂, if_neg nl],
        by rw [hprev, if_neg n₁, if_neg nf, if_neg nt]⟩

section Linked

/-- No link that was set is null again. -/
def StaysLinked (L L' : Mem α) : Prop := ∀ p, L.next p ≠ none → L'.next p ≠ none

omit [DecidableEq α] in
theorem StaysLinked.trans {L L' L'' : Mem α} (h : StaysLinked L L') (h' : StaysLinked L' L'') :
    StaysLinked L L'' := fun p hp => h' p (h p hp)

theorem setNext_linked (L : Mem α) (a b : α) : StaysLinked L (setNext L a (some b)) := by
  intro p hp
  rw [setNext_next]
  split
  · exact Option.some_ne_none b
  · exact hp

omit [DecidableEq α] in
theorem deref_ok {p : Option α} {a : α} (h : deref p = .ok a) : p = some a := by
  cases p with
  | none => cases h
  | some b =>
      cases h
      rfl

theorem coclinkInit_linked (L : Mem α) (a : α) : StaysLinked L (coclinkInit L a) :=
  setNext_linked _ a a

theorem coclinkAddBack_linked {L L' : Mem α} {head node : α}
    (h : coclinkAddBack L head node = .ok L') :
    StaysLinked L L' ∧ L'.next node ≠ none := by
  obtain ⟨prev, -, h⟩ := bind_ok h
  cases h
  have first := setNext_linked (setPrev L node (L.prev head)) node head
  have second := setNext_linked (setNext (setPrev L node (L.prev head)) node (some head)) prev node
  exact ⟨first.trans second, second node (by simp)⟩

theorem coclinkRemote_linked {L L' : Mem α} {node : α} (h : coclinkRemote L node = .ok L') :
    StaysLinked L L' := by
  obtain ⟨next, hnext, h⟩ := bind_ok h
  obtain ⟨prev, -, h⟩ := bind_ok h
  cases h
  have some_next : (setPrev L next (L.prev node)).next node = some next := deref_ok hnext
  rw [some_next]
  exact (setNext_linked (setPrev L next (L.prev node)) prev next).trans (coclinkInit_linked _ node)

theorem coclinkSplice_linked {L L' : Mem α} {head1 head2 : α}
    (h : coclinkSplice L head1 head2 = .ok L') : StaysLinked L L' := by
  unfold coclinkSplice at h
  split at h
  · cases h
    exact fun _ hp => hp
  · obtain ⟨first, -, h⟩ := bind_ok h
    obtain ⟨last, -, h⟩ := bind_ok h
    obtain ⟨atNode, hat, h⟩ := bind_ok h
    cases h
    rw [deref_ok hat]
    exact ((setNext_linked (setPrev L first (some head2)) head2 first).trans
      (setNext_linked _ last atNode)).trans (coclinkInit_linked _ head1)

end Linked

section Answered

/-- Every `prev` link is answered by a `next` link back. -/
def Answered (L : Mem α) : Prop := ∀ a z, L.prev a = some z → L.next z = some a

/-- Linked to no other node. -/
def Idle (L : Mem α) (p : α) : Prop := L.next p = none ∨ L.next p = some p

omit [DecidableEq α] in
theorem Idle.alone {L : Mem α} {p a : α} (idle : Idle L p) (linked : L.next p = some a) :
    a = p := by
  rcases idle with none | self
  · rw [none] at linked
    cases linked
  · exact Option.some.inj (linked.symm.trans self)

theorem coclinkInit_answered {L : Mem α} {x : α} (h : Answered L) (idle : Idle L x) :
    Answered (coclinkInit L x) := by
  intro a z prev
  rw [coclinkInit_prev] at prev
  rw [coclinkInit_next]
  by_cases self : a = x
  · rw [if_pos self] at prev
    cases prev
    rw [if_pos rfl, self]
  · rw [if_neg self] at prev
    have back := h a z prev
    rw [if_neg, back]
    rintro rfl
    exact self (idle.alone back)

/-- Adding a node leaves the links of idle nodes alone. -/
theorem coclinkAddBack_answered {L L' : Mem α} {head node : α} (h : Answered L)
    (idle : Idle L node) (ne : head ≠ node) (ran : coclinkAddBack L head node = .ok L') :
    Answered L' ∧ ∀ p, p ≠ head → p ≠ node → Idle L p → L'.next p = L.next p := by
  obtain ⟨last, found, ran⟩ := bind_ok ran
  have prev : L.prev head = some last := by simpa using deref_ok found
  have back := h head last prev
  have other : last ≠ node := by
    rintro rfl
    exact ne (idle.alone back)
  have nexts (a : α) : L'.next a =
      if a = last then some node else if a = node then some head else L.next a := by
    cases ran
    simp
  have prevs (a : α) : L'.prev a =
      if a = head then some node else if a = node then some last else L.prev a := by
    cases ran
    simp [prev]
  constructor
  · intro a z before
    rw [prevs] at before
    rw [nexts]
    by_cases isHead : a = head
    · rw [if_pos isHead] at before
      cases before
      rw [if_neg (Ne.symm other), if_pos rfl, isHead]
    · rw [if_neg isHead] at before
      by_cases isNode : a = node
      · rw [if_pos isNode] at before
        cases before
        rw [if_pos rfl, isNode]
      · rw [if_neg isNode] at before
        have answer := h a z before
        rw [if_neg, if_neg, answer]
        · rintro rfl
          exact isNode (idle.alone answer)
        · rintro rfl
          exact isHead (Option.some.inj (answer.symm.trans back))
  · intro p notHead notNode rest
    rw [nexts, if_neg, if_neg notNode]
    rintro rfl
    exact notHead (rest.alone back).symm

/-- So does taking a node out, and the node is idle then. -/
theorem coclinkRemote_answered {L L' : Mem α} {node : α} (h : Answered L)
    (ran : coclinkRemote L node = .ok L') :
    Answered L' ∧ L'.next node = some node ∧ ∀ p, Idle L p → L'.next p = L.next p := by
  obtain ⟨after, hnext, ran⟩ := bind_ok ran
  obtain ⟨last, hprev, ran⟩ := bind_ok ran
  have next := deref_ok hnext
  have prev : L.prev node = some last := by simpa using deref_ok hprev
  have back := h node last prev
  have nexts (a : α) : L'.next a =
      if a = node then some node else if a = last then some after else L.next a := by
    cases ran
    simp [coclinkInit_next, next]
  have prevs (a : α) : L'.prev a =
      if a = node then some node else if a = after then some last else L.prev a := by
    cases ran
    simp [coclinkInit_prev, prev]
  refine ⟨fun a z before => ?_, by rw [nexts, if_pos rfl], fun p rest => ?_⟩
  · rw [prevs] at before
    rw [nexts]
    by_cases isNode : a = node
    · rw [if_pos isNode] at before
      cases before
      rw [if_pos rfl, isNode]
    · rw [if_neg isNode] at before
      by_cases isAfter : a = after
      · rw [if_pos isAfter] at before
        cases before
        rw [if_neg, if_pos rfl, isAfter]
        rintro rfl
        exact isNode (isAfter.trans (Option.some.inj (next.symm.trans back)))
      · rw [if_neg isAfter] at before
        have answer := h a z before
        rw [if_neg, if_neg, answer]
        · rintro rfl
          exact isNode (Option.some.inj (answer.symm.trans back))
        · rintro rfl
          exact isAfter (Option.some.inj (answer.symm.trans next))
  · rw [nexts]
    split
    · next isNode =>
      rw [isNode] at rest ⊢
      rw [next, rest.alone next]
    · next other =>
      rw [if_neg]
      rintro rfl
      exact other (rest.alone back).symm

/-- And moving the nodes of a ring to a head that was initialised just before. -/
theorem coclinkSplice_answered {L L' : Mem α} {head1 head2 : α} (h : Answered L)
    (ne : head1 ≠ head2) (fresh : L.next head2 = some head2)
    (ran : coclinkSplice L head1 head2 = .ok L') :
    Answered L' ∧ ∀ p, p ≠ head1 → p ≠ head2 → Idle L p → L'.next p = L.next p := by
  unfold coclinkSplice at ran
  split at ran
  · cases ran
    exact ⟨h, fun p _ _ _ => rfl⟩
  · next some_nodes =>
    obtain ⟨first, hfirst, ran⟩ := bind_ok ran
    obtain ⟨last, hlast, ran⟩ := bind_ok ran
    obtain ⟨at', hat, ran⟩ := bind_ok ran
    have next := deref_ok hfirst
    have prev := deref_ok hlast
    rw [fresh] at hat
    cases hat
    have back := h head1 last prev
    have apart : last ≠ head1 := by
      rintro rfl
      exact some_nodes (by simp [coclinkIsEmpty, back])
    have outside : last ≠ head2 := by
      rintro rfl
      exact ne (Option.some.inj (back.symm.trans fresh))
    have nexts (a : α) : L'.next a = if a = head1 then some head1
        else if a = last then some head2 else if a = head2 then some first else L.next a := by
      cases ran
      simp [coclinkInit_next, fresh]
    have prevs (a : α) : L'.prev a = if a = head1 then some head1
        else if a = head2 then some last else if a = first then some head2 else L.prev a := by
      cases ran
      simp [coclinkInit_prev, prev]
    constructor
    · intro a z before
      rw [prevs] at before
      rw [nexts]
      by_cases one : a = head1
      · rw [if_pos one] at before
        cases before
        rw [if_pos rfl, one]
      · rw [if_neg one] at before
        by_cases two : a = head2
        · rw [if_pos two] at before
          cases before
          rw [if_neg apart, if_pos rfl, two]
        · rw [if_neg two] at before
          by_cases isFirst : a = first
          · rw [if_pos isFirst] at before
            cases before
            rw [if_neg (Ne.symm ne), if_neg (Ne.symm outside), if_pos rfl, isFirst]
          · rw [if_neg isFirst] at before
            have answer := h a z before
            rw [if_neg, if_neg, if_neg, answer]
            · rintro rfl
              exact two (Option.some.inj (answer.symm.trans fresh))
            · rintro rfl
              exact one (Option.some.inj (answer.symm.trans back))
            · rintro rfl
              exact isFirst (Option.some.inj (answer.symm.trans next))
    · intro p notOne notTwo rest
      rw [nexts, if_neg notOne, if_neg, if_neg notTwo]
      rintro rfl
      exact notOne (rest.alone back).symm

end Answered

end Colinlib.Source.Clink
