import Colinlib.Source.SetHeap

/-!
# Insertion into the set

The fix-up loop is followed with the focus at `curr`: each round either moves the
red violation two levels up or ends it. `coset_add` puts the new element where
the comparisons lead and leaves everything else in order.
-/
namespace Colinlib.Source.Set
open Colinlib.Theory Colinlib.Theory.CMemory Colinlib.Theory.RedBlack
open Colinlib.Theory.RedBlack.ColorTree

variable {α : Type} {set : Coset α} {path : Path (Nat × α)} {t : ATree α}

/-- Moving the focus to the other child of the parent. -/
theorem plug_other (s : Side) (c : Color) (e : Nat × α) (other t : ATree α)
    (rest : Path (Nat × α)) :
    plug (⟨s, c, e, other⟩ :: rest) t = plug (⟨s.flip, c, e, t⟩ :: rest) other := by
  simp only [plug, Frame.fill, join_flip]

theorem Heap.ref_ne {s : Side} {c : Color} {near far : ATree α} {e : Nat × α}
    (h : Heap set (plug path (join s c near e far))) (real : near ≠ .leaf) :
    ref near ≠ ref far := by
  obtain ⟨_, hnodup, _⟩ := h.apart
  obtain ⟨_, _, _, _, hdis⟩ := join_apart hnodup
  cases near with
  | leaf => exact absurd rfl real
  | node c₁ l₁ e₁ r₁ =>
      cases far with
      | leaf => simp [ref]
      | node c₂ l₂ e₂ r₂ =>
          intro heq
          have heq' : e₁.1 = e₂.1 := by simpa [ref] using heq
          refine hdis e₁.1 ((addrs_join .left c₁ l₁ e₁ r₁ _).mpr (.inr (.inl rfl))) ?_
          rw [heq']
          exact (addrs_join .left c₂ l₂ e₂ r₂ _).mpr (.inr (.inl rfl))

theorem ne_leaf_of_red (h : t.color = .red) : t ≠ .leaf := by
  rintro rfl
  cases h

/-- What a step of a fix-up leaves unchanged. -/
structure SameEntries (set set' : Coset α) (t t' : ATree α) : Prop where
  entries : t'.entries = t.entries
  kept : Kept set set' (addrs t)

theorem SameEntries.refl (set : Coset α) (t : ATree α) : SameEntries set set t t :=
  ⟨rfl, Kept.refl ..⟩

theorem SameEntries.trans {s₁ s₂ s₃ : Coset α} {t₁ t₂ t₃ : ATree α}
    (h : SameEntries s₁ s₂ t₁ t₂) (h' : SameEntries s₂ s₃ t₂ t₃) : SameEntries s₁ s₃ t₁ t₃ :=
  ⟨h'.entries.trans h.entries, h.kept.trans (h'.kept.congr (addrs_congr h.entries))⟩

section Steps
variable {s : Side} {c : Color} {near far : ATree α} {e : Nat × α}

theorem Heap.recolor (h : Heap set (plug path (join s c near e far))) (c' : Color) :
    ∃ set', Set.setColor set (.node e.1) c' = .ok set' ∧
      Heap set' (plug path (join s c' near e far)) ∧
      SameEntries set set' (plug path (join s c near e far)) (plug path (join s c' near e far)) := by
  obtain ⟨set', run, heap, kept⟩ := h.setColor c'
  exact ⟨set', run, heap, entries_plug_congr path (entries_join_congr s rfl rfl), kept⟩

theorem Heap.blacken (h : Heap set (plug path t)) :
    ∃ set', Set.setColor set (ref t) .black = .ok set' ∧ Heap set' (plug path (t.paint .black)) ∧
      SameEntries set set' (plug path t) (plug path (t.paint .black)) := by
  obtain ⟨set', run, heap, kept⟩ := h.paint
  exact ⟨set', run, heap, entries_plug_congr path (entries_paint ..), kept⟩

theorem Heap.rotate {d : Color} {a b f : ATree α} {x y : Nat × α}
    (h : Heap set (plug path (join s c a x (join s d b y f)))) :
    ∃ set', Set.rotate s set (.node x.1) = .ok set' ∧
      Heap set' (plug path (join s d (join s c a x b) y f)) ∧
      SameEntries set set' (plug path (join s c a x (join s d b y f)))
        (plug path (join s d (join s c a x b) y f)) := by
  obtain ⟨set', run, heap, kept⟩ := rotate_spec h
  exact ⟨set', run, heap, entries_plug_congr path (entries_rotate ..).symm, kept⟩

end Steps

section Insert
variable {s g : Side} {c : Color} {e d : Nat × α} {other uncle : ATree α} {up : Path (Nat × α)}
  {n : Nat}

/-- The reads of one round of the fix-up. -/
theorem insert_reads (h : Heap set (plug (⟨s, .red, e, other⟩ :: ⟨g, c, d, uncle⟩ :: up) t))
    (red : t.color = .red) :
    getParent set (ref t) = .ok (.node e.1) ∧ getParent set (.node e.1) = .ok (.node d.1) ∧
      getChild g set (.node d.1) = .ok (.node e.1) ∧
      getChild g.flip set (.node d.1) = .ok (ref uncle) ∧
      Set.getColor set (ref uncle) = .ok uncle.color := by
  have hgrand : Heap set (plug up (join g c (join s .red t e other) d uncle)) := h
  have hparent : Heap set (plug (⟨g, c, d, uncle⟩ :: up) (join s .red t e other)) := h
  have huncle : Heap set (plug (⟨g.flip, c, d, join s .red t e other⟩ :: up) uncle) := by
    rw [← plug_other]
    exact h
  refine ⟨h.getParent (ne_leaf_of_red red), hparent.joinParent, ?_, hgrand.getFar,
    huncle.getColor⟩
  have := hgrand.getNear
  rwa [ref_join] at this

/-- The source tests for the left side; the other side is what is left. -/
theorem insertFixedupStep_eq
    (h : Heap set (plug (⟨s, .red, e, other⟩ :: ⟨g, c, d, uncle⟩ :: up) t))
    (red : t.color = .red) :
    insertFixedupStep set (ref t) = insertFixedupBody g set (ref t) := by
  obtain ⟨hparent, hgrand, hnear, hfar, _⟩ := insert_reads h red
  have hne : Ref.node e.1 ≠ ref uncle := by
    have hj : Heap set (plug up (join g c (join s .red t e other) d uncle)) := h
    have := hj.ref_ne (by cases s <;> simp [join])
    rwa [ref_join] at this
  rw [insertFixedupStep, hparent]
  simp only [ok_bind, hgrand]
  cases g with
  | left => simp only [hnear, ok_bind, if_pos]
  | right =>
      have hleft : getChild .left set (.node d.1) = .ok (ref uncle) := hfar
      simp only [hleft, ok_bind, if_neg hne]

/-- A red uncle. -/
theorem insertBody_recolour
    (h : Heap set (plug (⟨s, .red, e, other⟩ :: ⟨g, c, d, uncle⟩ :: up) t))
    (focus : RedFocus (⟨s, .red, e, other⟩ :: ⟨g, c, d, uncle⟩ :: up) t n)
    (red : uncle.color = .red) :
    ∃ set' t', insertFixedupBody g set (ref t) = .ok (set', ref t') ∧ Heap set' (plug up t') ∧
      RedFocus up t' (n + 1) ∧
      SameEntries set set' (plug (⟨s, .red, e, other⟩ :: ⟨g, c, d, uncle⟩ :: up) t)
        (plug up t') := by
  obtain ⟨hparent, hgrand, _, huncle, hcolor⟩ := insert_reads h focus.red
  have h₀ : Heap set (plug (⟨g, c, d, uncle⟩ :: up) (join s .red t e other)) := h
  obtain ⟨set₁, run₁, h₁, same₁⟩ := h₀.recolor .black
  have h₁' : Heap set₁ (plug (⟨g.flip, c, d, join s .black t e other⟩ :: up) uncle) := by
    rw [← plug_other]
    exact h₁
  obtain ⟨set₂, run₂, h₂, same₂⟩ := h₁'.blacken
  rw [← plug_other, ← plug_other] at same₂
  have h₂' : Heap set₂ (plug up (join g c (join s .black t e other) d (uncle.paint .black))) := by
    rw [← plug_other] at h₂
    exact h₂
  obtain ⟨set₃, run₃, h₃, same₃⟩ := h₂'.recolor .red
  refine ⟨set₃, _, ?_, h₃, focus.recolour red, same₁.trans (same₂.trans same₃)⟩
  simp only [insertFixedupBody, hparent, hgrand, huncle, hcolor, red, if_true, run₁, run₂, run₃,
    ok_bind, ref_join]

/-- The rotation at the grandparent, once the child is an outer one. -/
theorem insertBody_outer
    (h : Heap set (plug (⟨g, .red, e, other⟩ :: ⟨g, c, d, uncle⟩ :: up) t)) :
    ∃ set₁ set₂ set₃, Set.setColor set (.node e.1) .black = .ok set₁ ∧
      getParent set₁ (.node e.1) = .ok (.node d.1) ∧
      Set.setColor set₁ (.node d.1) .red = .ok set₂ ∧
      Set.rotate g.flip set₂ (.node d.1) = .ok set₃ ∧
      Heap set₃ (plug (⟨g, .black, e, join g.flip .red uncle d other⟩ :: up) t) ∧
      SameEntries set set₃ (plug (⟨g, .red, e, other⟩ :: ⟨g, c, d, uncle⟩ :: up) t)
        (plug (⟨g, .black, e, join g.flip .red uncle d other⟩ :: up) t) := by
  have h₀ : Heap set (plug (⟨g, c, d, uncle⟩ :: up) (join g .red t e other)) := h
  obtain ⟨set₁, run₁, h₁, same₁⟩ := h₀.recolor .black
  have h₁' : Heap set₁ (plug up (join g c (join g .black t e other) d uncle)) := h₁
  obtain ⟨set₂, run₂, h₂, same₂⟩ := h₁'.recolor .red
  -- the same tree, seen from the uncle's side
  have view : plug up (join g .red (join g .black t e other) d uncle) =
      plug up (join g.flip .red uncle d (join g.flip .black other e t)) := by
    rw [join_flip, join_flip]
  rw [view] at h₂ same₂
  obtain ⟨set₃, run₃, h₃, same₃⟩ := h₂.rotate
  have result : plug up (join g.flip .black (join g.flip .red uncle d other) e t) =
      plug (⟨g, .black, e, join g.flip .red uncle d other⟩ :: up) t := by
    rw [join_flip]
    rfl
  rw [result] at h₃ same₃
  have hparent : getParent set₁ (.node e.1) = .ok (.node d.1) := h₁.joinParent
  exact ⟨set₁, set₂, set₃, run₁, hparent, run₂, run₃, h₃, same₁.trans (same₂.trans same₃)⟩

/-- A black uncle: the child is made an outer one, and the rotation ends the loop. -/
theorem insertBody_rotate
    (h : Heap set (plug (⟨s, .red, e, other⟩ :: ⟨g, c, d, uncle⟩ :: up) t))
    (focus : RedFocus (⟨s, .red, e, other⟩ :: ⟨g, c, d, uncle⟩ :: up) t n)
    (black : uncle.color = .black) :
    ∃ set' t' e' sub, insertFixedupBody g set (ref t) = .ok (set', ref t') ∧
      Heap set' (plug (⟨g, .black, e', sub⟩ :: up) t') ∧
      RedFocus (⟨g, .black, e', sub⟩ :: up) t' n ∧
      SameEntries set set' (plug (⟨s, .red, e, other⟩ :: ⟨g, c, d, uncle⟩ :: up) t)
        (plug (⟨g, .black, e', sub⟩ :: up) t') := by
  obtain ⟨hparent, hgrand, _, huncle, hcolor⟩ := insert_reads h focus.red
  have real := ne_leaf_of_red focus.red
  by_cases hs : s = g
  · subst hs
    have hinner : insertInner s set (.node e.1) (ref t) = .ok (set, ref t) := by
      have hj : Heap set (plug (⟨s, c, d, uncle⟩ :: up) (join s .red t e other)) := h
      rw [insertInner, hj.getFar]
      simp only [ok_bind, if_neg (hj.ref_ne real)]
    obtain ⟨set₁, set₂, set₃, run₁, hp, run₂, run₃, h₃, same⟩ := insertBody_outer h
    refine ⟨set₃, t, e, _, ?_, h₃, ⟨(focus.rotate black).any, focus.balanced, focus.red⟩, same⟩
    simp only [insertFixedupBody, hparent, hgrand, huncle, hcolor, black, reduceCtorEq, if_false,
      hinner, run₁, hp, run₂, run₃, ok_bind]
  · obtain rfl : s = g.flip := eq_flip_of_ne hs
    obtain ⟨a, x, b, ht⟩ := exists_join g real
    rw [focus.red] at ht
    subst ht
    have hj : Heap set (plug (⟨g, c, d, uncle⟩ :: up)
        (join g .red other e (join g .red a x b))) := by
      have := h
      rwa [plug, Frame.fill, join_flip] at this
    have view : plug (⟨g.flip, .red, e, other⟩ :: ⟨g, c, d, uncle⟩ :: up) (join g .red a x b) =
        plug (⟨g, c, d, uncle⟩ :: up) (join g .red other e (join g .red a x b)) := by
      rw [plug, Frame.fill, join_flip]
    obtain ⟨set₀, run₀, h₀, same₀⟩ := hj.rotate
    rw [← view] at same₀
    have hinner : insertInner g set (.node e.1) (ref (join g .red a x b)) =
        .ok (set₀, .node e.1) := by
      rw [insertInner, hj.getFar]
      simp only [ok_bind, if_pos, run₀]
    have h₀' : Heap set₀ (plug (⟨g, .red, x, b⟩ :: ⟨g, c, d, uncle⟩ :: up)
        (join g .red other e a)) := h₀
    have focus₀ := focus.inner
    obtain ⟨set₁, set₂, set₃, run₁, hp, run₂, run₃, h₃, same⟩ := insertBody_outer h₀'
    have hparent₀ : getParent set₀ (.node e.1) = .ok (.node x.1) := h₀'.joinParent
    refine ⟨set₃, _, x, _, ?_, h₃, ⟨(focus₀.rotate black).any, focus₀.balanced, focus₀.red⟩,
      same₀.trans same⟩
    rw [ref_join] at hparent hinner ⊢
    simp only [insertFixedupBody, hparent, hgrand, huncle, hcolor, black, reduceCtorEq, if_false,
      hinner, hparent₀, run₁, hp, run₂, run₃, ok_bind, ref_join]

end Insert

/-- One round of the fix-up: the focus moves up, and stays a red violation. -/
theorem insertFixedupStep_spec {f : Frame (Nat × α)} {rest : Path (Nat × α)} {n : Nat}
    (h : Heap set (plug (f :: rest) t)) (focus : RedFocus (f :: rest) t n)
    (red : f.color = .red) :
    ∃ set' path' t' n', insertFixedupStep set (ref t) = .ok (set', ref t') ∧
      Heap set' (plug path' t') ∧ RedFocus path' t' n' ∧
      path'.length < (f :: rest).length ∧
      SameEntries set set' (plug (f :: rest) t) (plug path' t') := by
  obtain ⟨s, _, e, other⟩ := f
  obtain rfl : _ = Color.red := red
  obtain ⟨_, _, ⟨g, c, d, uncle⟩, up, rfl, _, _, _⟩ := focus.fits.red_parent rfl
  rw [insertFixedupStep_eq h focus.red]
  cases huncle : uncle.color with
  | red =>
      obtain ⟨set', t', run, heap, focus', same⟩ := insertBody_recolour h focus huncle
      refine ⟨set', up, t', _, run, heap, focus', ?_, same⟩
      simp only [List.length_cons]
      omega
  | black =>
      obtain ⟨set', t', e', sub, run, heap, focus', same⟩ := insertBody_rotate h focus huncle
      exact ⟨set', _, t', _, run, heap, focus', by simp, same⟩

theorem insertFixedupGuard_spec (h : Heap set (plug path t)) (red : t.color = .red) :
    insertFixedupGuard set (ref t) = .ok (path.head?.any (fun f => f.color == .red)) := by
  rw [insertFixedupGuard, h.getParent (ne_leaf_of_red red)]
  cases path with
  | nil => simp only [ok_bind, parentRef, Set.getColor, h.nilBlack]; rfl
  | cons f rest =>
      obtain ⟨s, c, e, other⟩ := f
      have hj : Heap set (plug rest (join s c t e other)) := h
      simp only [ok_bind, parentRef, hj.joinColor]
      rfl

/-- The fix-up loop ends, at a black parent or at the root. -/
theorem insertFixedupLoop_spec (fuel : Nat) {set : Coset α} {path : Path (Nat × α)} {t : ATree α}
    {n : Nat} (h : Heap set (plug path t)) (focus : RedFocus path t n)
    (enough : path.length ≤ fuel) :
    ∃ set' path' t' n', insertFixedupLoop fuel set (ref t) = .ok set' ∧
      Heap set' (plug path' t') ∧ RedFocus path' t' n' ∧
      (∀ f ∈ path'.head?, f.color = .black) ∧
      SameEntries set set' (plug path t) (plug path' t') := by
  have guard := insertFixedupGuard_spec h focus.red
  induction fuel generalizing set path t n with
  | zero =>
      obtain rfl : path = [] := List.length_eq_zero_iff.mp (Nat.le_zero.mp enough)
      refine ⟨set, [], t, n, ?_, h, focus, by simp, .refl ..⟩
      simp only [insertFixedupLoop, guard, ok_bind]
      rfl
  | succ fuel ih =>
      by_cases hred : path.head?.any (fun f => f.color == .red) = true
      · cases path with
        | nil => cases hred
        | cons f rest =>
            have red : f.color = .red := by simpa using hred
            obtain ⟨set₁, path₁, t₁, n₁, run₁, h₁, focus₁, shorter, same₁⟩ :=
              insertFixedupStep_spec h focus red
            obtain ⟨set', path', t', n', run, heap, focus', stop, same⟩ :=
              ih h₁ focus₁ (by omega) (insertFixedupGuard_spec h₁ focus₁.red)
            refine ⟨set', path', t', n', ?_, heap, focus', stop, same₁.trans same⟩
            simp only [insertFixedupLoop, guard, hred, ok_bind, if_true, run₁, run]
      · refine ⟨set, path, t, n, ?_, h, focus, ?_, .refl ..⟩
        · simp only [insertFixedupLoop, guard, ok_bind, hred]
          rfl
        · intro f hf
          cases hc : f.color with
          | black => rfl
          | red =>
              refine absurd ?_ hred
              rw [Option.mem_def.mp hf]
              simp [hc]

theorem insertFixedup_spec {n : Nat} (h : Heap set (plug path t)) (focus : RedFocus path t n)
    (enough : path.length ≤ fuel set) :
    ∃ set' t' m, cosetInsertFixedup set (ref t) = .ok set' ∧ Heap set' t' ∧ Balanced t' m ∧
      t'.color = .black ∧ SameEntries set set' (plug path t) t' := by
  obtain ⟨set₁, path₁, t₁, n₁, run₁, h₁, focus₁, stop, same₁⟩ :=
    insertFixedupLoop_spec _ h focus enough
  obtain ⟨m, hm⟩ := focus₁.finish stop
  have h₁' : Heap set₁ (plug [] (plug path₁ t₁)) := h₁
  obtain ⟨set₂, run₂, h₂, same₂⟩ := h₁'.blacken
  refine ⟨set₂, (plug path₁ t₁).paint .black, m, ?_, h₂, hm, ?_, same₁.trans same₂⟩
  · rw [cosetInsertFixedup, run₁, ok_bind, h₁.root]
    exact run₂
  · cases plug path₁ t₁ <;> rfl

/-- A three-way comparison that is consistent with a total order. -/
structure Consistent (cmp : α → α → Int) : Prop where
  antisymm : ∀ x y, cmp x y < 0 ↔ 0 < cmp y x
  trans : ∀ x y z, cmp x y ≤ 0 → cmp y z ≤ 0 → cmp x z ≤ 0

theorem consistent_sub : Consistent fun x y : Int => x - y :=
  ⟨fun x y => by omega, fun x y z => by omega⟩

theorem Consistent.lt_trans {cmp : α → α → Int} (h : Consistent cmp) {x y z : α}
    (hxy : cmp x y < 0) (hyz : cmp y z < 0) : cmp x z < 0 := by
  have hle := h.trans x y z (by omega) (by omega)
  by_contra hnot
  have hzx : cmp z x ≤ 0 := by
    have := mt (h.antisymm x z).mpr hnot
    omega
  have hzy := h.trans z x y hzx (by omega)
  have := (h.antisymm y z).mp hyz
  omega

def Sorted (cmp : α → α → Int) (l : List (Nat × α)) : Prop :=
  l.Pairwise (fun x y => cmp x.2 y.2 < 0)

/-- The data belongs into the hole of the path. -/
structure Belongs (cmp : α → α → Int) (path : Path (Nat × α)) (data : α) : Prop where
  above : ∀ x ∈ before path, cmp x.2 data < 0
  below : ∀ x ∈ after path, cmp data x.2 < 0

/-- The last comparison tells on which side of the parent the hole is. -/
def SideOf (path : Path (Nat × α)) (ret : Int) : Prop :=
  ∀ f ∈ path.head?, f.side = .left ↔ ret < 0

theorem Belongs.descend {cmp : α → α → Int} (hc : Consistent cmp) {s : Side} {c : Color}
    {near far : ATree α} {e : Nat × α} {data : α} (b : Belongs cmp path data)
    (sorted : Sorted cmp (plug path (join s c near e far)).entries)
    (left : s = .left → cmp data e.2 < 0) (right : s = .right → cmp e.2 data < 0) :
    Belongs cmp (⟨s, c, e, far⟩ :: path) data := by
  have inner : Sorted cmp (join s c near e far).entries := by
    rw [entries_plug] at sorted
    exact (List.pairwise_append.mp (List.pairwise_append.mp sorted).1).2.1
  cases s with
  | left =>
      have hlt := left rfl
      have hfar := (List.pairwise_cons.mp (List.pairwise_append.mp inner).2.1).1
      refine ⟨b.above, ?_⟩
      intro x hx
      simp only [after, List.cons_append, List.mem_cons, List.mem_append] at hx
      rcases hx with rfl | hx | hx
      · exact hlt
      · exact hc.lt_trans hlt (hfar x hx)
      · exact b.below x hx
  | right =>
      have hgt := right rfl
      have hfar := (List.pairwise_append.mp inner).2.2
      refine ⟨?_, b.below⟩
      intro x hx
      simp only [before, List.mem_append, List.mem_singleton] at hx
      rcases hx with hx | hx | rfl
      · exact b.above x hx
      · exact hc.lt_trans (hfar x hx e (by simp)) hgt
      · exact hgt

theorem mem_entries_plug_join (s : Side) (c : Color) (near far : ATree α) (e : Nat × α) :
    e ∈ (plug path (join s c near e far)).entries := by
  rw [entries_plug]
  cases s <;> simp [join, entries]

/-- Nothing in the tree is equal to data that belongs into a hole. -/
theorem Belongs.absent {cmp : α → α → Int} (hc : Consistent cmp) {data : α}
    (b : Belongs cmp path data) (hole : plug path .leaf = t) :
    ∀ x ∈ t.entries, cmp data x.2 ≠ 0 := by
  intro x hx equal
  rw [← hole, entries_plug] at hx
  have side : x ∈ before path ∨ x ∈ after path := by simpa [entries] using hx
  rcases side with hx | hx
  · have := (hc.antisymm _ _).mp (b.above x hx)
    omega
  · have := b.below x hx
    omega

/-- The descent finds an equal element, or the hole the data belongs into. -/
theorem placeLoop_spec (hc : Consistent set.fnComp) (data : α) (fuel : Nat)
    {path : Path (Nat × α)} {t : ATree α} {ret : Int} (h : Heap set (plug path t))
    (sorted : Sorted set.fnComp (plug path t).entries) (b : Belongs set.fnComp path data)
    (side : SideOf path ret) (enough : t.height < fuel) :
    (placeLoop set data fuel (parentRef path) (ref t) ret = .ok none ∧
      ∃ x ∈ (plug path t).entries, set.fnComp data x.2 = 0) ∨
    ∃ path' ret', placeLoop set data fuel (parentRef path) (ref t) ret =
        .ok (some (parentRef path', ret')) ∧
      plug path' .leaf = plug path t ∧ Belongs set.fnComp path' data ∧ SideOf path' ret' := by
  induction fuel generalizing path t ret with
  | zero => exact absurd enough (Nat.not_lt_zero _)
  | succ fuel ih =>
      cases t with
      | leaf => exact .inr ⟨path, ret, rfl, rfl, b, side⟩
      | node c l e r =>
          have hleft : Heap set (plug path (join .left c l e r)) := h
          have hright : Heap set (plug path (join .right c r e l)) := h
          have hl : getChild .left set (.node e.1) = .ok (ref l) := hleft.getNear
          have hr : getChild .right set (.node e.1) = .ok (ref r) := hright.getNear
          have hne : ref (.node c l e r) ≠ .nil := by simp [ref]
          rw [placeLoop, if_neg hne]
          simp only [ref, hleft.getData, ok_bind]
          simp only [ColorTree.height] at enough
          by_cases hlt : set.fnComp data e.2 < 0
          · have b' : Belongs set.fnComp (⟨.left, c, e, r⟩ :: path) data :=
              b.descend hc sorted (fun _ => hlt) (by simp)
            have side' : SideOf (⟨.left, c, e, r⟩ :: path) (set.fnComp data e.2) := by
              rintro f ⟨⟩
              simp [hlt]
            have h' : Heap set (plug (⟨.left, c, e, r⟩ :: path) l) := h
            simp only [if_pos hlt, hl, ok_bind]
            exact ih h' sorted b' side' (by omega)
          · by_cases hgt : set.fnComp data e.2 > 0
            · have h' : Heap set (plug (⟨.right, c, e, l⟩ :: path) r) := h
              have sorted' : Sorted set.fnComp (plug path (join .right c r e l)).entries := sorted
              have b' : Belongs set.fnComp (⟨.right, c, e, l⟩ :: path) data := by
                refine b.descend hc sorted' (by simp) (fun _ => ?_)
                exact (hc.antisymm _ _).mpr hgt
              have side' : SideOf (⟨.right, c, e, l⟩ :: path) (set.fnComp data e.2) := by
                rintro f ⟨⟩
                simp [hlt]
              simp only [if_neg hlt, if_pos hgt, hr, ok_bind]
              exact ih h' sorted b' side' (by omega)
            · refine .inl ⟨by simp only [if_neg hlt, if_neg hgt], e, ?_, by omega⟩
              exact mem_entries_plug_join .left c l r e

/-- A set between operations. -/
structure Valid (set : Coset α) (t : ATree α) : Prop where
  heap : Heap set t
  balanced : ∃ m, Balanced t m
  black : t.color = .black
  sorted : Sorted set.fnComp t.entries
  size : set.size = t.entries.length
  fresh : ∀ a ∈ addrs t, a < set.next

theorem cosetNew_valid (fn : α → α → Int) : Valid (cosetNew fn) .leaf where
  heap := ⟨rfl, trivial, rfl, List.nodup_nil⟩
  balanced := ⟨0, .leaf⟩
  black := rfl
  sorted := List.Pairwise.nil
  size := rfl
  fresh := by
    intro a ha
    cases ha

theorem Valid.height_lt (v : Valid set t) : t.height < fuel set := by
  have := height_le_entries t
  have := v.size
  unfold fuel
  omega

/-- A new node is hung into the hole the descent ended at. -/
theorem attach_spec (data : α) {ret : Int} (h : Heap set (plug path .leaf))
    (fresh : ∀ a ∈ addrs (plug path .leaf), a < set.next) (side : SideOf path ret) (size : Int) :
    ∃ set', attach { (newNode set (parentRef path) data).2 with size := size } (parentRef path)
        (.node set.next) ret = .ok set' ∧
      Heap set' (plug path (.node .red .leaf (set.next, data) .leaf)) ∧
      set'.fnComp = set.fnComp ∧ set'.size = size ∧ set'.next = set.next + 1 ∧
      ∀ b, b ∉ addrs (plug path (.node .red .leaf (set.next, data) .leaf)) →
        set'.nodes b = set.nodes b := by
  obtain ⟨hpath, _⟩ := h.at_focus
  obtain ⟨hnodup, _, _⟩ := h.apart
  have hnew : set.next ∉ pathAddrs path := by
    intro hm
    rw [← addrs_plug_leaf] at hm
    exact Nat.lt_irrefl _ (fresh _ hm)
  have hdistinct : (addrs (plug path (.node .red .leaf (set.next, data) .leaf))).Nodup := by
    refine (addrs_plug_perm ..).nodup_iff.mpr (List.nodup_append.mpr ⟨hnodup, ?_, ?_⟩)
    · exact List.pairwise_singleton _ _
    · rintro a ha b hb rfl
      obtain rfl : a = set.next := by simpa [addrs, entries] using hb
      exact hnew ha
  have hkept : ∀ a, a ∈ (before path).map Prod.fst ∨ a ∈ (after path).map Prod.fst →
      (newNode set (parentRef path) data).2.nodes a = set.nodes a := by
    intro a ha
    refine store_other set _ ?_
    rintro rfl
    exact hnew (mem_pathAddrs.mpr ha)
  have hcell : (newNode set (parentRef path) data).2.nodes set.next =
      some ⟨parentRef path, .nil, .nil, data, .red⟩ := store_self ..
  have hout : ∀ b, b ∉ addrs (plug path (.node .red .leaf (set.next, data) .leaf)) →
      b ≠ set.next ∧ b ∉ pathAddrs path := by
    intro b hb
    have := mt (addrs_plug_perm ..).mem_iff.mpr hb
    rw [List.mem_append, not_or] at this
    exact ⟨fun same => this.2 (by simp [addrs, entries, same]), this.1⟩
  cases path with
  | nil =>
      refine ⟨_, rfl, ⟨h.nilBlack, ?_, rfl, hdistinct⟩, rfl, rfl, rfl,
        fun b hb => store_other set _ (hout b hb).1⟩
      exact ⟨hcell, trivial, trivial⟩
  | cons f rest =>
      obtain ⟨s, c, e, other⟩ := f
      have hpath₂ : HoldsPath (newNode set (parentRef (⟨s, c, e, other⟩ :: rest)) data).2.nodes
          (⟨s, c, e, other⟩ :: rest) .nil := hpath.frame hkept
      have habove : ({ (newNode set (parentRef (⟨s, c, e, other⟩ :: rest)) data).2 with
          size := size } : Coset α).nodes e.1 =
            some (cell s (parentRef rest) .nil (ref other) e.2 c) := hpath₂.1
      have hne : set.next ≠ e.1 := by
        rintro heq
        exact hnew ((pathAddrs_cons_perm ..).mem_iff.mpr (by rw [heq]; exact List.mem_cons_self))
      refine ⟨store { (newNode set (parentRef (⟨s, c, e, other⟩ :: rest)) data).2 with size := size }
          e.1 (cell s (parentRef rest) (.node set.next) (ref other) e.2 c), ?_,
        ⟨h.nilBlack, ?_, ?_, hdistinct⟩, rfl, rfl, rfl, ?_⟩
      · have hs := side _ rfl
        rw [attach, if_neg (by simp [parentRef])]
        cases s with
        | left =>
            rw [if_pos (hs.mp rfl)]
            exact setNear_cell habove _
        | right =>
            rw [if_neg (fun hlt => by cases hs.mpr hlt)]
            exact setNear_cell habove _
      · refine holds_plug.mpr ⟨?_, ?_, trivial, trivial⟩
        · have hpath₃ : HoldsPath ({ (newNode set (parentRef (⟨s, c, e, other⟩ :: rest)) data).2 with
              size := size } : Coset α).nodes (⟨s, c, e, other⟩ :: rest) .nil := hpath₂
          exact hpath₃.refill hnodup _
        · exact (store_other _ _ hne).trans hcell
      · exact h.root.trans (ref_plug _ rest _ _)
      · intro b hb
        obtain ⟨new, above⟩ := hout b hb
        have ne : b ≠ e.1 := by
          rintro rfl
          exact above ((pathAddrs_cons_perm ..).mem_iff.mpr List.mem_cons_self)
        exact (store_other _ _ ne).trans (store_other set _ new)

/-- The descent from the root. -/
theorem cosetPlace_spec (hc : Consistent set.fnComp) (v : Valid set t) (data : α) :
    (placeLoop set data (fuel set) .nil set.root 0 = .ok none ∧
      ∃ x ∈ t.entries, set.fnComp data x.2 = 0) ∨
    ∃ path ret, placeLoop set data (fuel set) .nil set.root 0 =
        .ok (some (parentRef path, ret)) ∧
      plug path .leaf = t ∧ Belongs set.fnComp path data ∧ SideOf path ret := by
  have root : set.root = ref t := v.heap.root
  have heap : Heap set (plug [] t) := v.heap
  have start : Belongs set.fnComp [] data := ⟨by simp [before], by simp [after]⟩
  have side : SideOf ([] : Path (Nat × α)) 0 := by rintro f ⟨⟩
  rw [root]
  exact placeLoop_spec hc data (fuel set) heap v.sorted start side v.height_lt

/-- Adding an element that is present changes nothing. -/
theorem cosetAdd_present (hc : Consistent set.fnComp) (v : Valid set t) {data : α}
    (present : ∃ x ∈ t.entries, set.fnComp data x.2 = 0) : cosetAdd set data = .ok set := by
  rcases cosetPlace_spec hc v data with ⟨run, -⟩ | ⟨path, ret, -, hole, belongs, -⟩
  · simp only [cosetAdd, run, ok_bind]
  · obtain ⟨x, hx, equal⟩ := present
    exact absurd equal (belongs.absent hc hole x hx)

/-- `coset_add` inserts the data in order, unless an equal element is present. -/
theorem cosetAdd_spec (hc : Consistent set.fnComp) (v : Valid set t) (data : α) :
    UnlessOverflow (cosetAdd set data) (fun set' => set'.fnComp = set.fnComp ∧ ∃ t', Valid set' t' ∧
      ((set' = set ∧ t' = t ∧ ∃ x ∈ t.entries, set.fnComp data x.2 = 0) ∨
        ∃ l r, t.entries = l ++ r ∧ t'.entries = l ++ (set.next, data) :: r ∧
          ∀ b, b ∉ addrs t' → set'.nodes b = set.nodes b)) := by
  rcases cosetPlace_spec hc v data with ⟨-, hfound⟩ | ⟨path, ret, hrun, rfl, hb, hside⟩
  · rw [cosetAdd_present hc v hfound]
    exact ⟨rfl, t, v, .inl ⟨rfl, rfl, hfound⟩⟩
  · have hadd : cosetAdd set data = (countUp (newNode set (parentRef path) data).2 >>= fun s =>
        attach s (parentRef path) (.node set.next) ret >>= fun s =>
          cosetInsertFixedup s (.node set.next)) := by
      simp only [cosetAdd, hrun, ok_bind]
      rfl
    rw [hadd]
    by_cases hmax : set.size + 1 ≤ (intMax : Int)
    · have hcount : countUp (newNode set (parentRef path) data).2 =
          .ok { (newNode set (parentRef path) data).2 with size := set.size + 1 } := if_pos hmax
      obtain ⟨set₁, hattach, heap₁, hcomp₁, hsize₁, hnext₁, hout₁⟩ :=
        attach_spec data v.heap v.fresh hside (set.size + 1)
      obtain ⟨m, hm⟩ := v.balanced
      obtain ⟨n, hleaf, hfits⟩ := fits_of_plug hm v.black
      have hn : n = 0 := by cases hleaf; rfl
      subst hn
      have focus : RedFocus path (.node .red .leaf (set.next, data) .leaf) 0 :=
        ⟨hfits, .red .leaf .leaf rfl rfl, rfl⟩
      have enough : path.length ≤ fuel set₁ := by
        have := length_path_le path (.leaf : ATree α)
        have := v.size
        unfold fuel
        omega
      obtain ⟨set₂, t', m', hfix, heap₂, hbal, hblack, same⟩ := insertFixedup_spec heap₁ focus enough
      have hentries : t'.entries = before path ++ (set.next, data) :: after path := by
        rw [same.entries, entries_plug]
        simp [entries]
      have hold : (plug path (.leaf : ATree α)).entries = before path ++ after path := by
        rw [entries_plug]
        simp [entries]
      have hcomp : set₂.fnComp = set.fnComp := same.kept.fnComp.trans hcomp₁
      rw [hcount, ok_bind, hattach, ok_bind]
      change UnlessOverflow (cosetInsertFixedup set₁ (.node set.next)) _
      rw [show Ref.node set.next = ref (.node .red .leaf (set.next, data) .leaf) from rfl, hfix]
      refine ⟨hcomp, t', ⟨heap₂, ⟨m', hbal⟩, hblack, ?_, ?_, ?_⟩,
        .inr ⟨_, _, hold, hentries, fun b hb => ?_⟩⟩
      · rw [hcomp, hentries]
        have hsorted := v.sorted
        rw [hold] at hsorted
        obtain ⟨hl, hr, hlr⟩ := List.pairwise_append.mp hsorted
        refine List.pairwise_append.mpr ⟨hl, List.pairwise_cons.mpr ⟨hb.below, hr⟩, ?_⟩
        intro x hx y hy
        rcases List.mem_cons.mp hy with rfl | hy
        · exact hb.above x hx
        · exact hlr x hx y hy
      · rw [same.kept.size, hsize₁, v.size, hentries, hold]
        simp only [List.length_append, List.length_cons]
        omega
      · intro a ha
        rw [same.kept.next, hnext₁]
        have hmem : a = set.next ∨ a ∈ addrs (plug path (.leaf : ATree α)) := by
          simp only [addrs, hentries, hold, List.map_append, List.map_cons, List.mem_append,
            List.mem_cons] at ha ⊢
          tauto
        rcases hmem with rfl | hmem
        · exact Nat.lt_succ_self _
        · exact Nat.lt_succ_of_lt (v.fresh a hmem)
      · rw [addrs_congr same.entries] at hb
        exact (same.kept.outside b hb).trans (hout₁ b hb)
    · have hcount : countUp (newNode set (parentRef path) data).2 = .error .intOverflow :=
        if_neg hmax
      rw [hcount]
      rfl

end Colinlib.Source.Set
