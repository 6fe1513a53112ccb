import Mathlib.Data.List.Chain
import Mathlib.Data.List.Nodup
import Mathlib.Logic.Function.Basic

/-!
# Memory of intrusive links, rings, and collections of rings

A node carries a nullable `next` and `prev` pointer. A ring is a head and its
nodes, each linked to its successor and the last one back to the head. The
surgery rules below say what a few pointer updates do to rings, so that a
program's list operation is verified by naming the segments it cuts and joins.
-/
namespace Colinlib.Theory.Links

structure Mem (α : Type) where
  next : α → Option α
  prev : α → Option α

variable {α : Type}

section Update
variable [DecidableEq α]

def setNext (L : Mem α) (a : α) (v : Option α) : Mem α :=
  { L with next := Function.update L.next a v }

def setPrev (L : Mem α) (a : α) (v : Option α) : Mem α :=
  { L with prev := Function.update L.prev a v }

@[simp] theorem setNext_next (L : Mem α) (a : α) (v : Option α) (b : α) :
    (setNext L a v).next b = if b = a then v else L.next b := by
  simp [setNext, Function.update_apply]

@[simp] theorem setNext_prev (L : Mem α) (a : α) (v : Option α) (b : α) :
    (setNext L a v).prev b = L.prev b := rfl

@[simp] theorem setPrev_prev (L : Mem α) (a : α) (v : Option α) (b : α) :
    (setPrev L a v).prev b = if b = a then v else L.prev b := by
  simp [setPrev, Function.update_apply]

@[simp] theorem setPrev_next (L : Mem α) (a : α) (v : Option α) (b : α) :
    (setPrev L a v).next b = L.next b := rfl

end Update

/-- `a` and `b` are neighbours, and each knows the other. -/
def Joined (L : Mem α) (a b : α) : Prop := L.next a = some b ∧ L.prev b = some a

/-- The circular list with head `h` and nodes `xs`, in order. -/
structure Ring (L : Mem α) (h : α) (xs : List α) : Prop where
  distinct : (h :: xs).Nodup
  chain : List.IsChain (Joined L) ((h :: xs) ++ [h])

/-- Two memories that agree on the fields of `a`. -/
def SameAt (L L' : Mem α) (a : α) : Prop := L'.next a = L.next a ∧ L'.prev a = L.prev a

/-- A segment survives when its inner `next` and `prev` fields do. -/
theorem chain_frame {L L' : Mem α} {l : List α} (h : List.IsChain (Joined L) l)
    (hnext : ∀ a ∈ l.dropLast, L'.next a = L.next a)
    (hprev : ∀ b ∈ l.tail, L'.prev b = L.prev b) : List.IsChain (Joined L') l := by
  induction l with
  | nil => exact List.isChain_nil
  | cons a rest ih =>
      cases rest with
      | nil => exact List.isChain_singleton a
      | cons b rest =>
          obtain ⟨hab, hrest⟩ := List.isChain_cons_cons.mp h
          refine List.isChain_cons_cons.mpr ⟨⟨?_, ?_⟩, ih hrest ?_ ?_⟩
          · rw [hnext a (by simp)]
            exact hab.1
          · rw [hprev b (by simp)]
            exact hab.2
          · intro c hc
            exact hnext c (by simpa using Or.inr hc)
          · intro c hc
            exact hprev c (List.mem_of_mem_tail (by simpa using hc))

/-- A ring none of whose fields changed is still that ring. -/
theorem Ring.frame {L L' : Mem α} {h : α} {xs : List α} (r : Ring L h xs)
    (same : ∀ a ∈ h :: xs, SameAt L L' a) : Ring L' h xs := by
  refine ⟨r.distinct, chain_frame r.chain ?_ ?_⟩
  · intro a ha
    rw [List.dropLast_concat] at ha
    exact (same a ha).1
  · intro b hb
    refine (same b ?_).2
    simp only [List.cons_append, List.tail_cons, List.mem_append, List.mem_singleton] at hb
    rcases hb with hb | rfl
    · exact List.mem_cons_of_mem _ hb
    · exact List.mem_cons_self

/-- The node a head's `next` field names. -/
theorem Ring.next_head {L : Mem α} {h : α} {xs : List α} (r : Ring L h xs) :
    L.next h = some (xs.headD h) := by
  cases xs with
  | nil => exact (List.isChain_cons_cons.mp r.chain).1.1
  | cons x rest => exact (List.isChain_cons_cons.mp r.chain).1.1

/-- A chain through a join is its two sides and the join. -/
theorem chain_join {L : Mem α} {l r : List α} {a b : α} :
    List.IsChain (Joined L) ((l ++ [a]) ++ (b :: r)) ↔
      List.IsChain (Joined L) (l ++ [a]) ∧ Joined L a b ∧ List.IsChain (Joined L) (b :: r) := by
  rw [List.isChain_append]
  simp only [List.getLast?_concat, List.head?_cons, Option.mem_def, Option.some.injEq]
  constructor
  · rintro ⟨hl, hr, hj⟩
    exact ⟨hl, hj a rfl b rfl, hr⟩
  · rintro ⟨hl, hj, hr⟩
    refine ⟨hl, hr, ?_⟩
    rintro _ rfl _ rfl
    exact hj

theorem exists_concat (h : α) (xs : List α) : ∃ ys z, h :: xs = ys ++ [z] :=
  ⟨_, _, (List.dropLast_append_getLast (List.cons_ne_nil h xs)).symm⟩

theorem Ring.prev_head {L : Mem α} {h z : α} {xs ys : List α} (r : Ring L h xs)
    (cut : h :: xs = ys ++ [z]) : L.prev h = some z := by
  have chain := r.chain
  rw [cut] at chain
  exact (chain_join.mp chain).2.1.2

theorem Ring.init (L : Mem α) (h : α) (next : L.next h = some h) (prev : L.prev h = some h) :
    Ring L h [] :=
  ⟨List.nodup_singleton h, List.isChain_pair.mpr ⟨next, prev⟩⟩

/-- Only a ring without nodes has a head that links to itself. -/
theorem Ring.next_self_iff {L : Mem α} {h : α} {xs : List α} (r : Ring L h xs) :
    L.next h = some h ↔ xs = [] := by
  rw [r.next_head]
  cases xs with
  | nil => simp
  | cons x rest =>
      have := r.distinct
      simp only [List.headD_cons, Option.some.injEq, reduceCtorEq, iff_false]
      rintro rfl
      simp at this

theorem exists_uncons (r : List α) (h : α) : ∃ s rs, r ++ [h] = s :: rs := by
  cases r with
  | nil => exact ⟨h, [], rfl⟩
  | cons b rest => exact ⟨b, rest ++ [h], rfl⟩

/-- A node between its neighbours. -/
theorem Ring.neighbours {L : Mem α} {h x p s : α} {l r ls rs : List α}
    (ring : Ring L h (l ++ x :: r)) (before : h :: l = ls ++ [p]) (after : r ++ [h] = s :: rs) :
    L.next x = some s ∧ L.prev x = some p ∧ s ≠ x := by
  have chain := ring.chain
  have split : (h :: (l ++ x :: r)) ++ [h] = (ls ++ [p]) ++ x :: s :: rs := by
    rw [← before, ← after]
    simp
  rw [split] at chain
  have cut := chain_join.mp chain
  refine ⟨(List.isChain_cons_cons.mp cut.2.2).1.1, cut.2.1.2, ?_⟩
  have hs : s ∈ r ++ [h] := by rw [after]; simp
  have distinct := List.nodup_cons.mp ring.distinct
  rintro rfl
  rw [List.mem_append, List.mem_singleton] at hs
  rcases hs with hm | rfl
  · exact (List.nodup_cons.mp (List.nodup_append.mp distinct.2).2.1).1 hm
  · exact distinct.1 (by simp)

/-- The head may as well stand at the end. -/
theorem nodup_rotate {h : α} {xs : List α} (distinct : (h :: xs).Nodup) : (xs ++ [h]).Nodup := by
  rw [List.nodup_append_comm]
  exact distinct

section Segments
variable [DecidableEq α] {L L' : Mem α}

/-- A node more between the last node of a ring and its head. -/
theorem Ring.append {h x z : α} {xs : List α} (ring : Ring L h xs) (new : x ∉ h :: xs)
    (hz : L.prev h = some z)
    (next : ∀ a, L'.next a = if a = z then some x else if a = x then some h else L.next a)
    (prev : ∀ a, L'.prev a = if a = h then some x else if a = x then some z else L.prev a) :
    Ring L' h (xs ++ [x]) := by
  obtain ⟨ys, z', cut⟩ := exists_concat h xs
  obtain rfl : z' = z := by
    rw [ring.prev_head cut] at hz
    exact Option.some.inj hz
  have ne : x ≠ h := by rintro rfl; exact new List.mem_cons_self
  have hxz : x ≠ z' := by rintro rfl; exact new (by rw [cut]; simp)
  have distinct := ring.distinct
  refine ⟨?_, ?_⟩
  · rw [← List.cons_append, List.nodup_append_comm]
    exact List.nodup_cons.mpr ⟨by simpa using new, by simpa using distinct⟩
  · have old : List.IsChain (Joined L) (ys ++ [z']) := by
      have chain := ring.chain
      rw [cut] at chain
      exact (chain_join.mp chain).1
    have kept : List.IsChain (Joined L') (ys ++ [z']) := by
      refine chain_frame old ?_ ?_
      · intro a ha
        rw [List.dropLast_concat] at ha
        rw [cut] at distinct
        have haz : a ≠ z' := by
          rintro rfl
          exact (List.nodup_append.mp distinct).2.2 a ha a (by simp) rfl
        have hax : a ≠ x := by
          rintro rfl
          exact new (by rw [cut]; simp [ha])
        rw [next, if_neg haz, if_neg hax]
      · intro b hb
        rw [← cut, List.tail_cons] at hb
        have hbh : b ≠ h := by
          rintro rfl
          exact (List.nodup_cons.mp distinct).1 hb
        have hbx : b ≠ x := by
          rintro rfl
          exact new (List.mem_cons_of_mem _ hb)
        rw [prev, if_neg hbh, if_neg hbx]
    rw [← List.cons_append, cut, List.append_assoc]
    refine chain_join.mpr ⟨kept, ⟨by simp [next], ?_⟩, List.isChain_pair.mpr ⟨?_, by simp [prev]⟩⟩
    · rw [prev, if_neg ne, if_pos rfl]
    · rw [next, if_neg hxz, if_pos rfl]

/-- A node less: its neighbours are joined. -/
theorem Ring.remove {h x p s : α} {l r ls rs : List α} (ring : Ring L h (l ++ x :: r))
    (before : h :: l = ls ++ [p]) (after : r ++ [h] = s :: rs)
    (next : ∀ a, L'.next a = if a = x then some x else if a = p then some s else L.next a)
    (prev : ∀ a, L'.prev a = if a = x then some x else if a = s then some p else L.prev a) :
    Ring L' h (l ++ r) ∧ x ∉ h :: (l ++ r) := by
  have hp : p ∈ h :: l := by rw [before]; simp
  have hsm : s ∈ r ++ [h] := by rw [after]; simp
  have hperm : List.Perm (h :: (l ++ x :: r)) (x :: h :: (l ++ r)) :=
    (List.Perm.cons h List.perm_middle).trans (List.Perm.swap x h _)
  obtain ⟨hx, hrest⟩ := List.nodup_cons.mp (hperm.nodup_iff.mp ring.distinct)
  have hxl : x ∉ h :: l := fun hm => hx (by simp only [List.mem_cons, List.mem_append] at hm ⊢; tauto)
  have hxr : x ∉ r ++ [h] := fun hm =>
    hx (by simp only [List.mem_cons, List.mem_append] at hm ⊢; tauto)
  -- the ring falls into what stands before the node and what stands behind it
  have sides : List.IsChain (Joined L) (ls ++ [p]) ∧ List.IsChain (Joined L) (s :: rs) := by
    have chain := ring.chain
    have split : (h :: (l ++ x :: r)) ++ [h] = (ls ++ [p]) ++ x :: s :: rs := by
      rw [← before, ← after]
      simp
    rw [split] at chain
    have cut := chain_join.mp chain
    exact ⟨cut.1, (List.isChain_cons_cons.mp cut.2.2).2⟩
  have left : List.IsChain (Joined L') (ls ++ [p]) := by
    refine chain_frame sides.1 ?_ ?_
    · intro a ha
      rw [List.dropLast_concat] at ha
      have hal : a ∈ h :: l := by rw [before]; simp [ha]
      have hax : a ≠ x := by rintro rfl; exact hxl hal
      have hap : a ≠ p := by
        rintro rfl
        rw [← List.cons_append, before] at hrest
        have := List.Nodup.of_append_left hrest
        exact (List.nodup_append.mp this).2.2 a ha a (by simp) rfl
      rw [next, if_neg hax, if_neg hap]
    · intro b hb
      rw [← before, List.tail_cons] at hb
      have hbx : b ≠ x := by rintro rfl; exact hxl (List.mem_cons_of_mem _ hb)
      have hbs : b ≠ s := by
        rintro rfl
        have hgl := List.nodup_cons.mp hrest
        rw [List.mem_append, List.mem_singleton] at hsm
        rcases hsm with hsm | rfl
        · exact (List.nodup_append.mp hgl.2).2.2 b hb b hsm rfl
        · exact hgl.1 (List.mem_append_left _ hb)
      rw [prev, if_neg hbx, if_neg hbs]
  have right : List.IsChain (Joined L') (s :: rs) := by
    refine chain_frame sides.2 ?_ ?_
    · intro a ha
      rw [← after, List.dropLast_concat] at ha
      have hax : a ≠ x := by rintro rfl; exact hxr (List.mem_append_left _ ha)
      have hap : a ≠ p := by
        rintro rfl
        rw [← List.cons_append] at hrest
        exact (List.nodup_append.mp hrest).2.2 a hp a ha rfl
      rw [next, if_neg hax, if_neg hap]
    · intro b hb
      have mem : b ∈ r ++ [h] := by rw [after]; exact List.mem_of_mem_tail hb
      have hbs : b ≠ s := by
        rintro rfl
        have cycle : ((l ++ r) ++ [h]).Nodup := nodup_rotate hrest
        rw [List.append_assoc, after] at cycle
        exact (List.nodup_cons.mp (List.Nodup.of_append_right cycle)).1 hb
      have hbx : b ≠ x := by rintro rfl; exact hxr mem
      rw [prev, if_neg hbx, if_neg hbs]
  refine ⟨⟨hrest, ?_⟩, hx⟩
  rw [← List.cons_append, List.append_assoc, after, before]
  refine chain_join.mpr ⟨left, ⟨?_, ?_⟩, right⟩
  · have hpx : p ≠ x := by rintro rfl; exact hxl hp
    rw [next, if_neg hpx, if_pos rfl]
  · have hsx : s ≠ x := by rintro rfl; exact hxr hsm
    rw [prev, if_neg hsx, if_pos rfl]

/-- The nodes of one ring in front of those of another. -/
theorem Ring.splice {h₁ h₂ first last front : α} {xs ys ls rs fs : List α}
    (ring₁ : Ring L h₁ xs) (ring₂ : Ring L h₂ ys) (apart : List.Disjoint (h₁ :: xs) (h₂ :: ys))
    (start : xs = first :: rs) (stop : xs = ls ++ [last]) (into : ys ++ [h₂] = front :: fs)
    (next : ∀ a, L'.next a = if a = h₁ then some h₁ else if a = h₂ then some first
      else if a = last then some front else L.next a)
    (prev : ∀ a, L'.prev a = if a = h₁ then some h₁ else if a = first then some h₂
      else if a = front then some last else L.prev a) : Ring L' h₂ (xs ++ ys) := by
  have distinct₁ := List.nodup_cons.mp ring₁.distinct
  have distinct₂ := List.nodup_cons.mp ring₂.distinct
  have hfirst : first ∈ xs := by rw [start]; simp
  have hlast : last ∈ xs := by rw [stop]; simp
  have hfront : front ∈ h₂ :: ys := by
    have : front ∈ ys ++ [h₂] := by rw [into]; simp
    simpa [or_comm] using this
  have hxs : ∀ a ∈ xs, a ≠ h₁ ∧ a ≠ h₂ ∧ a ≠ front := by
    intro a ha
    refine ⟨?_, ?_, ?_⟩
    · rintro rfl; exact distinct₁.1 ha
    · rintro rfl; exact apart (List.mem_cons_of_mem _ ha) List.mem_cons_self
    · rintro rfl; exact apart (List.mem_cons_of_mem _ ha) hfront
  have hys : ∀ a ∈ h₂ :: ys, a ≠ h₁ ∧ a ∉ xs := by
    intro a ha
    refine ⟨?_, fun hm => apart (List.mem_cons_of_mem _ hm) ha⟩
    rintro rfl
    exact apart List.mem_cons_self ha
  refine ⟨?_, ?_⟩
  · refine List.nodup_cons.mpr ⟨?_, List.nodup_append.mpr ⟨distinct₁.2, distinct₂.2, ?_⟩⟩
    · rw [List.mem_append]
      rintro (hm | hm)
      · exact (hxs h₂ hm).2.1 rfl
      · exact distinct₂.1 hm
    · rintro a ha b hb rfl
      exact (hys a (List.mem_cons_of_mem _ hb)).2 ha
  · have chain₁ : List.IsChain (Joined L') xs := by
      have old : List.IsChain (Joined L) xs :=
        List.IsChain.infix ring₁.chain ⟨[h₁], [h₁], by simp⟩
      refine chain_frame old ?_ ?_
      · intro a ha
        rw [stop, List.dropLast_concat] at ha
        have hm : a ∈ xs := by rw [stop]; simp [ha]
        have hal : a ≠ last := by
          rintro rfl
          have := distinct₁.2
          rw [stop] at this
          exact (List.nodup_append.mp this).2.2 a ha a (by simp) rfl
        rw [next, if_neg (hxs a hm).1, if_neg (hxs a hm).2.1, if_neg hal]
      · intro b hb
        have hm : b ∈ xs := List.mem_of_mem_tail hb
        have hbf : b ≠ first := by
          rintro rfl
          have := distinct₁.2
          rw [start] at this hb
          exact (List.nodup_cons.mp this).1 hb
        rw [prev, if_neg (hxs b hm).1, if_neg hbf, if_neg (hxs b hm).2.2]
    have chain₂ : List.IsChain (Joined L') (front :: fs) := by
      have old : List.IsChain (Joined L) (ys ++ [h₂]) :=
        List.IsChain.infix ring₂.chain ⟨[h₂], [], by simp⟩
      rw [into] at old
      refine chain_frame old ?_ ?_
      · intro a ha
        rw [← into, List.dropLast_concat] at ha
        have hm := hys a (List.mem_cons_of_mem _ ha)
        have hag : a ≠ h₂ := by rintro rfl; exact distinct₂.1 ha
        have hal : a ≠ last := by rintro rfl; exact hm.2 hlast
        rw [next, if_neg hm.1, if_neg hag, if_neg hal]
      · intro b hb
        have hb' : b ∈ ys ++ [h₂] := by rw [into]; exact List.mem_of_mem_tail hb
        have hm := hys b (by simpa [or_comm] using hb')
        have hbf : b ≠ first := by rintro rfl; exact hm.2 hfirst
        have hbt : b ≠ front := by
          rintro rfl
          have cycle : (ys ++ [h₂]).Nodup := nodup_rotate ring₂.distinct
          rw [into] at cycle
          exact (List.nodup_cons.mp cycle).1 hb
        rw [prev, if_neg hm.1, if_neg hbf, if_neg hbt]
    have hl := hys h₂ List.mem_cons_self
    have joinLast : Joined L' last front := by
      refine ⟨?_, ?_⟩
      · rw [next, if_neg (hxs last hlast).1, if_neg (hxs last hlast).2.1, if_pos rfl]
      · have hm := hys front hfront
        have hff : front ≠ first := by rintro rfl; exact hm.2 hfirst
        rw [prev, if_neg hm.1, if_neg hff, if_pos rfl]
    have joinFirst : Joined L' h₂ first := by
      refine ⟨?_, ?_⟩
      · rw [next, if_neg hl.1, if_pos rfl]
      · rw [prev, if_neg (hxs first hfirst).1, if_pos rfl]
    have whole : List.IsChain (Joined L') ((h₂ :: ls ++ [last]) ++ front :: fs) := by
      refine chain_join.mpr ⟨?_, joinLast, chain₂⟩
      rw [List.cons_append, ← stop, start]
      rw [start] at chain₁
      exact List.isChain_cons_cons.mpr ⟨joinFirst, chain₁⟩
    rw [← into] at whole
    rw [stop]
    simpa using whole

end Segments

/-- Which rings there are: the heads, and the nodes of each. -/
abbrev Shape (α : Type) := α → Option (List α)

/-- Every ring of the shape is in the memory, and no two share a node or a head. -/
structure Rings (L : Mem α) (shape : Shape α) : Prop where
  ring : ∀ {h xs}, shape h = some xs → Ring L h xs
  apart : ∀ {h xs h' xs'}, shape h = some xs → shape h' = some xs' → h ≠ h' →
    List.Disjoint (h :: xs) (h' :: xs')

/-- `x` is in no ring, except perhaps alone in its own. -/
def Loose (shape : Shape α) (x : α) : Prop :=
  ∀ h xs, shape h = some xs → x ∈ h :: xs → h = x ∧ xs = []

theorem Loose.not_mem {shape : Shape α} {x h : α} {xs : List α} (loose : Loose shape x)
    (hs : shape h = some xs) (ne : h ≠ x) : x ∉ h :: xs :=
  fun hx => ne (loose h xs hs hx).1

theorem Loose.alone {shape : Shape α} {x : α} {xs : List α} (loose : Loose shape x)
    (hs : shape x = some xs) : xs = [] :=
  (loose x xs hs List.mem_cons_self).2

section Surgery
variable [DecidableEq α]

/-- Assemble a new collection: the rings of the heads in `touched` are shown
directly, every other ring is framed. -/
theorem Rings.assemble {L L' : Mem α} {shape shape' : Shape α} (rings : Rings L shape)
    (touched : List α)
    (kept : ∀ g ∉ touched, shape' g = shape g)
    (same : ∀ g ys, g ∉ touched → shape g = some ys → ∀ a ∈ g :: ys, SameAt L L' a)
    (ring : ∀ g ∈ touched, ∀ ys, shape' g = some ys → Ring L' g ys)
    (inner : ∀ g ∈ touched, ∀ g' ∈ touched, ∀ ys ys', shape' g = some ys →
      shape' g' = some ys' → g ≠ g' → List.Disjoint (g :: ys) (g' :: ys'))
    (outer : ∀ g ∈ touched, ∀ g', g' ∉ touched → ∀ ys ys', shape' g = some ys →
      shape g' = some ys' → List.Disjoint (g :: ys) (g' :: ys')) : Rings L' shape' where
  ring := by
    intro g ys hg
    by_cases ht : g ∈ touched
    · exact ring g ht ys hg
    · rw [kept g ht] at hg
      exact (rings.ring hg).frame (same g ys ht hg)
  apart := by
    intro g ys g' ys' hg hg' ne
    by_cases ht : g ∈ touched
    · by_cases ht' : g' ∈ touched
      · exact inner g ht g' ht' ys ys' hg hg' ne
      · rw [kept g' ht'] at hg'
        exact outer g ht g' ht' ys ys' hg hg'
    · rw [kept g ht] at hg
      by_cases ht' : g' ∈ touched
      · exact fun a ha ha' => outer g' ht' g ht ys' ys hg' hg ha' ha
      · rw [kept g' ht'] at hg'
        exact rings.apart hg hg' ne

theorem Rings.init {L L' : Mem α} {shape : Shape α} {x : α} (rings : Rings L shape)
    (loose : Loose shape x)
    (next : ∀ a, L'.next a = if a = x then some x else L.next a)
    (prev : ∀ a, L'.prev a = if a = x then some x else L.prev a) :
    Rings L' (Function.update shape x (some [])) := by
  refine rings.assemble [x] ?_ ?_ ?_ ?_ ?_
  · intro g hg
    exact Function.update_of_ne (by simpa using hg) _ _
  · intro g ys hg hs a ha
    have hax : a ≠ x := by
      rintro rfl
      exact loose.not_mem hs (by simpa using hg) ha
    exact ⟨by rw [next, if_neg hax], by rw [prev, if_neg hax]⟩
  · intro g hg ys hs
    obtain rfl : g = x := by simpa using hg
    obtain rfl : [] = ys := by simpa using hs
    exact Ring.init L' g (by simp [next]) (by simp [prev])
  · intro g hg g' hg' _ _ _ _ ne
    simp only [List.mem_singleton] at hg hg'
    exact absurd (hg.trans hg'.symm) ne
  · intro g hg g' hg' ys ys' hs hs'
    obtain rfl : g = x := by simpa using hg
    obtain rfl : [] = ys := by simpa using hs
    simpa using loose.not_mem hs' (by simpa using hg')

/-- Linking a loose node between the last node of a ring and its head. -/
theorem Rings.append {L L' : Mem α} {shape : Shape α} {h x z : α} {xs : List α}
    (rings : Rings L shape) (hs : shape h = some xs) (loose : Loose shape x) (ne : h ≠ x)
    (hz : L.prev h = some z)
    (next : ∀ a, L'.next a = if a = z then some x else if a = x then some h else L.next a)
    (prev : ∀ a, L'.prev a = if a = h then some x else if a = x then some z else L.prev a) :
    Rings L' (Function.update (Function.update shape x none) h (some (xs ++ [x]))) := by
  have hzmem : z ∈ h :: xs := by
    obtain ⟨ys, z', cut⟩ := exists_concat h xs
    rw [(rings.ring hs).prev_head cut] at hz
    cases hz
    rw [cut]
    simp
  refine rings.assemble [h, x] ?_ ?_ ?_ ?_ ?_
  · intro g hg
    simp only [List.mem_cons, List.not_mem_nil, or_false, not_or] at hg
    rw [Function.update_of_ne hg.1, Function.update_of_ne hg.2]
  · intro g us hg hgs a ha
    simp only [List.mem_cons, List.not_mem_nil, or_false, not_or] at hg
    have hax : a ≠ x := by rintro rfl; exact loose.not_mem hgs hg.2 ha
    have hah : a ∉ h :: xs := rings.apart hgs hs hg.1 ha
    have haz : a ≠ z := by rintro rfl; exact hah hzmem
    have hahh : a ≠ h := by rintro rfl; exact hah List.mem_cons_self
    exact ⟨by rw [next, if_neg haz, if_neg hax], by rw [prev, if_neg hahh, if_neg hax]⟩
  · intro g hg us hgs
    rcases List.mem_pair.mp hg with rfl | rfl
    · obtain rfl : xs ++ [x] = us := by simpa using hgs
      exact (rings.ring hs).append (loose.not_mem hs ne) hz next prev
    · rw [Function.update_of_ne (Ne.symm ne), Function.update_self] at hgs
      cases hgs
  · intro g hg g' hg' us us' hgs hgs' hne
    rcases List.mem_pair.mp hg with rfl | rfl <;> rcases List.mem_pair.mp hg' with rfl | rfl
    · exact absurd rfl hne
    · rw [Function.update_of_ne (Ne.symm ne), Function.update_self] at hgs'
      cases hgs'
    · rw [Function.update_of_ne (Ne.symm ne), Function.update_self] at hgs
      cases hgs
    · exact absurd rfl hne
  · intro g hg g' hg' us us' hgs hgs'
    simp only [List.mem_cons, List.not_mem_nil, or_false, not_or] at hg'
    rcases List.mem_pair.mp hg with rfl | rfl
    · obtain rfl : xs ++ [x] = us := by simpa using hgs
      have old := rings.apart hs hgs' (Ne.symm hg'.1)
      intro a ha ha'
      rw [← List.cons_append, List.mem_append, List.mem_singleton] at ha
      rcases ha with ha | rfl
      · exact old ha ha'
      · exact loose.not_mem hgs' hg'.2 ha'
    · rw [Function.update_of_ne (Ne.symm ne), Function.update_self] at hgs
      cases hgs

/-- Closing the gap around a node and linking the node to itself. -/
theorem Rings.remove {L L' : Mem α} {shape : Shape α} {h x p s : α} {l r ls rs : List α}
    (rings : Rings L shape) (hs : shape h = some (l ++ x :: r))
    (before : h :: l = ls ++ [p]) (after : r ++ [h] = s :: rs)
    (next : ∀ a, L'.next a = if a = x then some x else if a = p then some s else L.next a)
    (prev : ∀ a, L'.prev a = if a = x then some x else if a = s then some p else L.prev a) :
    Rings L' (Function.update (Function.update shape h (some (l ++ r))) x (some [])) := by
  obtain ⟨ring, hx⟩ := (rings.ring hs).remove before after next prev
  have hp : p ∈ h :: l := by rw [before]; simp
  have hsm : s ∈ r ++ [h] := by rw [after]; simp
  have ne : h ≠ x := by rintro rfl; exact hx List.mem_cons_self
  refine rings.assemble [h, x] ?_ ?_ ?_ ?_ ?_
  · intro g hg
    simp only [List.mem_cons, List.not_mem_nil, or_false, not_or] at hg
    rw [Function.update_of_ne hg.2, Function.update_of_ne hg.1]
  · intro g us hg hgs a ha
    simp only [List.mem_cons, List.not_mem_nil, or_false, not_or] at hg
    have hah : a ∉ h :: (l ++ x :: r) := rings.apart hgs hs hg.1 ha
    have hax : a ≠ x := by rintro rfl; exact hah (by simp)
    have hap : a ≠ p := by
      rintro rfl
      exact hah (by simp only [List.mem_cons, List.mem_append] at hp ⊢; tauto)
    have has : a ≠ s := by
      rintro rfl
      exact hah (by simp only [List.mem_cons, List.mem_append] at hsm ⊢; tauto)
    exact ⟨by rw [next, if_neg hax, if_neg hap], by rw [prev, if_neg hax, if_neg has]⟩
  · intro g hg us hgs
    rcases List.mem_pair.mp hg with rfl | rfl
    · rw [Function.update_of_ne ne, Function.update_self] at hgs
      obtain rfl : l ++ r = us := Option.some.inj hgs
      exact ring
    · obtain rfl : [] = us := by simpa using hgs
      exact Ring.init L' g (by simp [next]) (by simp [prev])
  · intro g hg g' hg' us us' hgs hgs' hne
    rcases List.mem_pair.mp hg with rfl | rfl <;> rcases List.mem_pair.mp hg' with rfl | rfl
    · exact absurd rfl hne
    · rw [Function.update_of_ne ne, Function.update_self] at hgs
      obtain rfl : l ++ r = us := Option.some.inj hgs
      obtain rfl : [] = us' := by simpa using hgs'
      simpa using hx
    · rw [Function.update_of_ne ne, Function.update_self] at hgs'
      obtain rfl : l ++ r = us' := Option.some.inj hgs'
      obtain rfl : [] = us := by simpa using hgs
      simpa using hx
    · exact absurd rfl hne
  · intro g hg g' hg' us us' hgs hgs'
    simp only [List.mem_cons, List.not_mem_nil, or_false, not_or] at hg'
    have old : List.Disjoint (h :: (l ++ x :: r)) (g' :: us') :=
      rings.apart hs hgs' (Ne.symm hg'.1)
    rcases List.mem_pair.mp hg with rfl | rfl
    · rw [Function.update_of_ne ne, Function.update_self] at hgs
      obtain rfl : l ++ r = us := Option.some.inj hgs
      intro a ha ha'
      refine old ?_ ha'
      simp only [List.mem_cons, List.mem_append] at ha ⊢
      tauto
    · obtain rfl : [] = us := by simpa using hgs
      intro a ha ha'
      obtain rfl : a = g := by simpa using ha
      exact old (by simp) ha'

/-- Moving all nodes of one ring to the front of another. -/
theorem Rings.splice {L L' : Mem α} {shape : Shape α} {h₁ h₂ first last front : α}
    {xs ys ls rs fs : List α} (rings : Rings L shape) (ne : h₁ ≠ h₂)
    (hs₁ : shape h₁ = some xs) (hs₂ : shape h₂ = some ys)
    (start : xs = first :: rs) (stop : xs = ls ++ [last]) (into : ys ++ [h₂] = front :: fs)
    (next : ∀ a, L'.next a = if a = h₁ then some h₁ else if a = h₂ then some first
      else if a = last then some front else L.next a)
    (prev : ∀ a, L'.prev a = if a = h₁ then some h₁ else if a = first then some h₂
      else if a = front then some last else L.prev a) :
    Rings L' (Function.update (Function.update shape h₁ (some [])) h₂ (some (xs ++ ys))) := by
  have apart : List.Disjoint (h₁ :: xs) (h₂ :: ys) := rings.apart hs₁ hs₂ ne
  have hfirst : first ∈ xs := by rw [start]; simp
  have hlast : last ∈ xs := by rw [stop]; simp
  have hfront : front ∈ h₂ :: ys := by
    have : front ∈ ys ++ [h₂] := by rw [into]; simp
    simpa [or_comm] using this
  have outside : h₁ ∉ h₂ :: (xs ++ ys) := by
    intro mem
    simp only [List.mem_cons, List.mem_append] at mem
    rcases mem with same | mem | mem
    · exact ne same
    · exact (List.nodup_cons.mp (rings.ring hs₁).distinct).1 mem
    · exact apart List.mem_cons_self (List.mem_cons_of_mem _ mem)
  refine rings.assemble [h₁, h₂] ?_ ?_ ?_ ?_ ?_
  · intro g hg
    simp only [List.mem_cons, List.not_mem_nil, or_false, not_or] at hg
    rw [Function.update_of_ne hg.2, Function.update_of_ne hg.1]
  · intro g us hg hgs a ha
    simp only [List.mem_cons, List.not_mem_nil, or_false, not_or] at hg
    have ha₁ : a ∉ h₁ :: xs := rings.apart hgs hs₁ hg.1 ha
    have ha₂ : a ∉ h₂ :: ys := rings.apart hgs hs₂ hg.2 ha
    have n₁ : a ≠ h₁ := by rintro rfl; exact ha₁ List.mem_cons_self
    have n₂ : a ≠ h₂ := by rintro rfl; exact ha₂ List.mem_cons_self
    have nf : a ≠ first := by rintro rfl; exact ha₁ (List.mem_cons_of_mem _ hfirst)
    have nl : a ≠ last := by rintro rfl; exact ha₁ (List.mem_cons_of_mem _ hlast)
    have nt : a ≠ front := by rintro rfl; exact ha₂ hfront
    exact ⟨by rw [next, if_neg n₁, if_neg n₂, if_neg nl],
      by rw [prev, if_neg n₁, if_neg nf, if_neg nt]⟩
  · intro g hg us hgs
    rcases List.mem_pair.mp hg with rfl | rfl
    · rw [Function.update_of_ne ne, Function.update_self] at hgs
      obtain rfl : [] = us := Option.some.inj hgs
      exact Ring.init L' g (by simp [next]) (by simp [prev])
    · obtain rfl : xs ++ ys = us := by simpa using hgs
      exact (rings.ring hs₁).splice (rings.ring hs₂) apart start stop into next prev
  · intro g hg g' hg' us us' hgs hgs' hne
    rcases List.mem_pair.mp hg with rfl | rfl <;> rcases List.mem_pair.mp hg' with rfl | rfl
    · exact absurd rfl hne
    · rw [Function.update_of_ne ne, Function.update_self] at hgs
      obtain rfl : [] = us := Option.some.inj hgs
      obtain rfl : xs ++ ys = us' := by simpa using hgs'
      simpa using outside
    · rw [Function.update_of_ne ne, Function.update_self] at hgs'
      obtain rfl : [] = us' := Option.some.inj hgs'
      obtain rfl : xs ++ ys = us := by simpa using hgs
      simpa using outside
    · exact absurd rfl hne
  · intro g hg g' hg' us us' hgs hgs'
    simp only [List.mem_cons, List.not_mem_nil, or_false, not_or] at hg'
    have old₁ := rings.apart hs₁ hgs' (Ne.symm hg'.1)
    have old₂ := rings.apart hs₂ hgs' (Ne.symm hg'.2)
    rcases List.mem_pair.mp hg with rfl | rfl
    · rw [Function.update_of_ne ne, Function.update_self] at hgs
      obtain rfl : [] = us := Option.some.inj hgs
      intro a ha ha'
      obtain rfl : a = g := by simpa using ha
      exact old₁ List.mem_cons_self ha'
    · obtain rfl : xs ++ ys = us := by simpa using hgs
      intro a ha ha'
      simp only [List.mem_cons, List.mem_append] at ha
      rcases ha with rfl | ha | ha
      · exact old₂ List.mem_cons_self ha'
      · exact old₁ (List.mem_cons_of_mem _ ha) ha'
      · exact old₂ (List.mem_cons_of_mem _ ha) ha'

end Surgery

section Mirror
variable {L L' : Mem α} {shape : Shape α}

/-- The memory with the directions exchanged: every ring is read backwards. -/
def Mem.mirror (L : Mem α) : Mem α := ⟨L.prev, L.next⟩

theorem Ring.mirror {h : α} {xs : List α} (ring : Ring L h xs) : Ring L.mirror h xs.reverse := by
  have rotated : (h :: xs.reverse) ++ [h] = ((h :: xs) ++ [h]).reverse := by simp
  refine ⟨?_, ?_⟩
  · rw [List.nodup_cons, List.mem_reverse, List.nodup_reverse]
    exact List.nodup_cons.mp ring.distinct
  · rw [rotated, List.isChain_reverse]
    exact ring.chain.imp fun _ _ joined => ⟨joined.2, joined.1⟩

theorem Rings.mirror (rings : Rings L shape) :
    Rings L.mirror fun h => (shape h).map List.reverse where
  ring := by
    intro h us hs
    obtain ⟨xs, here, rfl⟩ := Option.map_eq_some_iff.mp hs
    exact (rings.ring here).mirror
  apart := by
    intro h us h' us' hs hs' ne
    obtain ⟨xs, here, rfl⟩ := Option.map_eq_some_iff.mp hs
    obtain ⟨xs', here', rfl⟩ := Option.map_eq_some_iff.mp hs'
    intro a ha ha'
    exact rings.apart here here' ne (by simpa using ha) (by simpa using ha')

/-- Linking a loose node between a head and its first node. -/
theorem Rings.prepend [DecidableEq α] {h x z : α} {xs : List α} (rings : Rings L shape)
    (hs : shape h = some xs) (loose : Loose shape x) (ne : h ≠ x) (hz : L.next h = some z)
    (next : ∀ a, L'.next a = if a = h then some x else if a = x then some z else L.next a)
    (prev : ∀ a, L'.prev a = if a = z then some x else if a = x then some h else L.prev a) :
    Rings L' (Function.update (Function.update shape x none) h (some (x :: xs))) := by
  have loose' : Loose (fun g => (shape g).map List.reverse) x := by
    intro g us hg mem
    obtain ⟨ys, here, rfl⟩ := Option.map_eq_some_iff.mp hg
    obtain ⟨same, rfl⟩ := loose g ys here (by simpa using mem)
    exact ⟨same, rfl⟩
  have linked : Rings L'.mirror (Function.update (Function.update
      (fun g => (shape g).map List.reverse) x none) h (some (xs.reverse ++ [x]))) :=
    rings.mirror.append (by rw [hs]; rfl) loose' ne hz prev next
  have back := linked.mirror
  have shapes : (fun g => (Function.update (Function.update (fun g => (shape g).map List.reverse)
      x none) h (some (xs.reverse ++ [x])) g).map List.reverse) =
      Function.update (Function.update shape x none) h (some (x :: xs)) := by
    funext g
    by_cases head : g = h
    · subst head
      simp
    · rw [Function.update_of_ne head, Function.update_of_ne head]
      by_cases node : g = x
      · subst node
        simp
      · rw [Function.update_of_ne node, Function.update_of_ne node]
        cases shape g <;> simp
  rw [shapes] at back
  exact back

end Mirror

end Colinlib.Theory.Links
