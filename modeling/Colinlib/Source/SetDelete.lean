import Colinlib.Source.SetInsert

/-!
# Deletion from the set

The fix-up is followed with the focus at `curr`, which may be the sentinel; then
the sentinel's parent field is the parent of the focus. The sibling is a real
node because the path expects a black node more than `curr` has.
-/
namespace Colinlib.Source.Set
open Colinlib.Theory Colinlib.Theory.CMemory Colinlib.Theory.RedBlack
open Colinlib.Theory.RedBlack.ColorTree

variable {α : Type} {set : Coset α} {path rest : Path (Nat × α)} {t : ATree α}

/-- The focus of the delete fix-up. -/
structure Curr (set : Coset α) (path : Path (Nat × α)) (t : ATree α) : Prop where
  heap : Heap set (plug path t)
  sentinel : t = .leaf → set.nilParent = parentRef path

theorem Curr.getParent (h : Curr set path t) : getParent set (ref t) = .ok (parentRef path) := by
  cases t with
  | leaf => simp only [ref, Set.getParent, h.sentinel rfl]
  | node c l e r => exact h.heap.getParent (by simp)

theorem curr_of_ne_leaf (h : Heap set (plug path t)) (real : t ≠ .leaf) : Curr set path t :=
  ⟨h, fun e => absurd e real⟩

theorem join_ne_leaf (s : Side) (c : Color) (near far : ATree α) (e : Nat × α) :
    join s c near e far ≠ .leaf := by cases s <;> simp [join]

theorem plug_ne_leaf (path : Path (Nat × α)) (real : t ≠ .leaf) : plug path t ≠ .leaf := by
  induction path generalizing t with
  | nil => exact real
  | cons f rest ih => exact ih (join_ne_leaf _ _ _ _ _)

section Body
variable {s : Side} {c : Color} {e y : Nat × α} {a b sib : ATree α} {n : Nat}

/-- The parent's other child. -/
theorem Curr.getSibling (h : Curr set (⟨s, c, e, sib⟩ :: rest) t) :
    getChild s.flip set (.node e.1) = .ok (ref sib) := by
  have hj : Heap set (plug rest (join s c t e sib)) := h.heap
  exact hj.getFar

/-- The view with the focus at the sibling. -/
theorem Curr.sibling (h : Curr set (⟨s, c, e, sib⟩ :: rest) t) :
    Heap set (plug (⟨s.flip, c, e, t⟩ :: rest) sib) := by
  rw [← plug_other]
  exact h.heap

theorem Curr.kept {set' : Coset α} {path' : Path (Nat × α)} {t' : ATree α}
    (h : Curr set (⟨s, c, e, sib⟩ :: rest) t)
    (heap : Heap set' (plug path' t)) (same : SameEntries set set' t' (plug path' t))
    (parent : parentRef path' = .node e.1) : Curr set' path' t := by
  refine ⟨heap, fun hl => ?_⟩
  rw [same.kept.nilParent, h.sentinel hl, parent]
  rfl

/-- A red sibling is rotated above the parent. -/
theorem deleteRedSibling_red (h : Curr set (⟨s, c, e, join s .red a y b⟩ :: rest) t) :
    ∃ set', deleteRedSibling s set (ref t) (.node y.1) = .ok (set', ref a) ∧
      Curr set' (⟨s, .red, e, a⟩ :: ⟨s, .black, y, b⟩ :: rest) t ∧
      SameEntries set set' (plug (⟨s, c, e, join s .red a y b⟩ :: rest) t)
        (plug (⟨s, .red, e, a⟩ :: ⟨s, .black, y, b⟩ :: rest) t) := by
  have hsib := h.sibling
  obtain ⟨set₁, run₁, h₁, same₁⟩ := hsib.recolor .black
  rw [← plug_other, ← plug_other] at same₁
  rw [← plug_other] at h₁
  have c₁ := h.kept h₁ same₁ rfl
  have h₁' : Heap set₁ (plug rest (join s c t e (join s .black a y b))) := h₁
  obtain ⟨set₂, run₂, h₂, same₂⟩ := h₁'.recolor .red
  obtain ⟨set₃, run₃, h₃, same₃⟩ := h₂.rotate
  have same := same₁.trans (same₂.trans same₃)
  have c₃ : Curr set₃ (⟨s, .red, e, a⟩ :: ⟨s, .black, y, b⟩ :: rest) t := h.kept h₃ same rfl
  refine ⟨set₃, ?_, c₃, same⟩
  simp only [deleteRedSibling, hsib.joinColor, if_true, run₁, c₁.getParent, parentRef, run₂, run₃,
    c₃.getParent, c₃.getSibling, ok_bind]

theorem deleteRedSibling_black (h : Curr set (⟨s, c, e, join s .black a y b⟩ :: rest) t) :
    deleteRedSibling s set (ref t) (.node y.1) = .ok (set, .node y.1) := by
  simp only [deleteRedSibling, h.sibling.joinColor, reduceCtorEq, if_false, ok_bind]

/-- A red inner nephew is rotated outside. -/
theorem deleteInnerNephew_red {a' : ATree α} {x : Nat × α}
    (h : Curr set (⟨s, c, e, join s .black (join s .red a x a') y b⟩ :: rest) t)
    (cb : b.color = .black) :
    ∃ set', deleteInnerNephew s set (ref t) (.node y.1) = .ok (set', .node x.1) ∧
      Curr set' (⟨s, c, e, join s .black a x (join s .red a' y b)⟩ :: rest) t ∧
      SameEntries set set'
        (plug (⟨s, c, e, join s .black (join s .red a x a') y b⟩ :: rest) t)
        (plug (⟨s, c, e, join s .black a x (join s .red a' y b)⟩ :: rest) t) := by
  have hsib := h.sibling
  have hfar : Heap set (plug (⟨s.flip, .black, y, join s .red a x a'⟩ ::
      ⟨s.flip, c, e, t⟩ :: rest) b) := by
    have := hsib
    rwa [← join_flip] at this
  have hnear : Heap set (plug (⟨s, .black, y, b⟩ :: ⟨s.flip, c, e, t⟩ :: rest)
      (join s .red a x a')) := hsib
  obtain ⟨set₁, run₁, h₁, same₁⟩ := hnear.recolor .black
  have h₁' : Heap set₁ (plug (⟨s.flip, c, e, t⟩ :: rest)
      (join s .black (join s .black a x a') y b)) := h₁
  obtain ⟨set₂, run₂, h₂, same₂⟩ := h₁'.recolor .red
  have view : join s .red (join s .black a x a') y b =
      join s.flip .red b y (join s.flip .black a' x a) := by
    rw [join_flip, join_flip]
  rw [view] at h₂ same₂
  obtain ⟨set₃, run₃, h₃, same₃⟩ := h₂.rotate
  have result : join s.flip .black (join s.flip .red b y a') x a =
      join s .black a x (join s .red a' y b) := by
    rw [join_flip, join_flip]
  rw [result] at h₃ same₃
  have same := same₁.trans (same₂.trans same₃)
  have start : plug (⟨s, .black, y, b⟩ :: ⟨s.flip, c, e, t⟩ :: rest) (join s .red a x a') =
      plug (⟨s, c, e, join s .black (join s .red a x a') y b⟩ :: rest) t := by
    rw [plug_other s c e]
    rfl
  rw [start, ← plug_other] at same
  rw [← plug_other] at h₃
  have c₃ := h.kept h₃ same rfl
  refine ⟨set₃, ?_, c₃, same⟩
  simp only [deleteInnerNephew, hsib.getFar, hfar.getColor, cb, if_true, hsib.getNear, ref_join,
    run₁, run₂, run₃, c₃.getParent, parentRef, c₃.getSibling, ok_bind]

theorem deleteInnerNephew_black (h : Curr set (⟨s, c, e, join s .black a y b⟩ :: rest) t)
    (cb : b.color = .red) :
    deleteInnerNephew s set (ref t) (.node y.1) = .ok (set, .node y.1) := by
  have hsib := h.sibling
  have hfar : Heap set (plug (⟨s.flip, .black, y, a⟩ :: ⟨s.flip, c, e, t⟩ :: rest) b) := by
    have := hsib
    rwa [← join_flip] at this
  simp only [deleteInnerNephew, hsib.getFar, hfar.getColor, cb, reduceCtorEq, if_false, ok_bind]

/-- The last rotation, for a red outer nephew. -/
theorem deleteOuterNephew_spec (h : Curr set (⟨s, c, e, join s .black a y b⟩ :: rest) t) :
    ∃ set₁ set₂ set₃ set₄, getParent set (ref t) = .ok (.node e.1) ∧
      Set.getColor set (.node e.1) = .ok c ∧ Set.setColor set (.node y.1) c = .ok set₁ ∧
      Set.setColor set₁ (.node e.1) .black = .ok set₂ ∧
      getChild s.flip set₂ (.node y.1) = .ok (ref b) ∧
      Set.setColor set₂ (ref b) .black = .ok set₃ ∧
      Set.rotate s set₃ (.node e.1) = .ok set₄ ∧
      Heap set₄ (plug rest (join s c (join s .black t e a) y (b.paint .black))) ∧
      SameEntries set set₄ (plug (⟨s, c, e, join s .black a y b⟩ :: rest) t)
        (plug rest (join s c (join s .black t e a) y (b.paint .black))) := by
  have hpar : Heap set (plug rest (join s c t e (join s .black a y b))) := h.heap
  obtain ⟨set₁, run₁, h₁, same₁⟩ := h.sibling.recolor c
  rw [← plug_other, ← plug_other] at same₁
  rw [← plug_other] at h₁
  have h₁' : Heap set₁ (plug rest (join s c t e (join s c a y b))) := h₁
  obtain ⟨set₂, run₂, h₂, same₂⟩ := h₁'.recolor .black
  have view : ∀ d : ATree α, plug rest (join s .black t e (join s c a y d)) =
      plug (⟨s.flip, c, y, a⟩ :: ⟨s.flip, .black, e, t⟩ :: rest) d := by
    intro d
    simp only [plug, Frame.fill, join_flip]
  have hsib₂ : Heap set₂ (plug (⟨s.flip, .black, e, t⟩ :: rest) (join s c a y b)) := by
    rw [← plug_other]
    exact h₂
  have h₂' := h₂
  rw [view b] at h₂' same₂
  obtain ⟨set₃, run₃, h₃, same₃⟩ := h₂'.blacken
  rw [← view (b.paint .black)] at h₃ same₃
  obtain ⟨set₄, run₄, h₄, same₄⟩ := h₃.rotate
  exact ⟨set₁, set₂, set₃, set₄, h.getParent, hpar.joinColor, run₁, run₂, hsib₂.getFar, run₃,
    run₄, h₄, same₁.trans (same₂.trans (same₃.trans same₄))⟩

/-- The body of the fix-up from a black sibling on. -/
theorem deleteBody_black
    (h : Curr set (⟨s, c, e, join s .black a y b⟩ :: rest) t)
    (short : ShortFocus (⟨s, c, e, join s .black a y b⟩ :: rest) t n)
    (black : t.color = .black) {set₀ : Coset α} {sib₀ : Ref}
    (hparent : getParent set₀ (ref t) = .ok (.node e.1))
    (hsib : getChild s.flip set₀ (.node e.1) = .ok sib₀)
    (hred : deleteRedSibling s set₀ (ref t) sib₀ = .ok (set, .node y.1)) :
    ∃ set' path' t' k, deleteFixedupBody s set₀ (ref t) = .ok (set', ref t') ∧
      Curr set' path' t' ∧ ShortFocus path' t' k ∧
      (path' = rest ∧ t'.color = c ∨ path' = []) ∧
      SameEntries set set' (plug (⟨s, c, e, join s .black a y b⟩ :: rest) t) (plug path' t') := by
  have hs := h.sibling
  have hnear : Heap set (plug (⟨s, .black, y, b⟩ :: ⟨s.flip, c, e, t⟩ :: rest) a) := hs
  have hfar : Heap set (plug (⟨s.flip, .black, y, a⟩ :: ⟨s.flip, c, e, t⟩ :: rest) b) := by
    have := hs
    rwa [← join_flip] at this
  -- the branch that ends the loop, after the inner nephew has been seen to
  have finish : ∀ {a b : ATree α} {y : Nat × α} {set₁ : Coset α},
      Curr set₁ (⟨s, c, e, join s .black a y b⟩ :: rest) t →
      ShortFocus (⟨s, c, e, join s .black a y b⟩ :: rest) t n → b.color = .red →
      ∃ set₂ set₃ set₄ set₅ t', getParent set₁ (ref t) = .ok (.node e.1) ∧
        Set.getColor set₁ (.node e.1) = .ok c ∧ Set.setColor set₁ (.node y.1) c = .ok set₂ ∧
        Set.setColor set₂ (.node e.1) .black = .ok set₃ ∧
        getChild s.flip set₃ (.node y.1) = .ok (ref b) ∧
        Set.setColor set₃ (ref b) .black = .ok set₄ ∧
        Set.rotate s set₄ (.node e.1) = .ok set₅ ∧ set₅.root = ref t' ∧
        Curr set₅ [] t' ∧ (∃ k, ShortFocus [] t' k) ∧
        SameEntries set₁ set₅ (plug (⟨s, c, e, join s .black a y b⟩ :: rest) t) t' := by
    intro a b y set₁ h₁ short₁ cb
    obtain ⟨set₂, set₃, set₄, set₅, hp, hc, run₂, run₃, hb, run₄, run₅, heap, same⟩ :=
      deleteOuterNephew_spec h₁
    obtain ⟨⟨m, hm⟩, hblack⟩ := short₁.outer_nephew black cb
    refine ⟨set₂, set₃, set₄, set₅, _, hp, hc, run₂, run₃, hb, run₄, run₅, heap.root,
      curr_of_ne_leaf heap (plug_ne_leaf rest (join_ne_leaf _ _ _ _ _)), ⟨m, .top, fun _ => hm, ?_⟩, same⟩
    intro hc
    rw [hblack] at hc
    cases hc
  by_cases hboth : a.color = .black ∧ b.color = .black
  · obtain ⟨k, hk⟩ := short.lift black hboth.1 hboth.2
    obtain ⟨set₁, run₁, h₁, same₁⟩ := hs.recolor .red
    rw [← plug_other, ← plug_other] at same₁
    rw [← plug_other] at h₁
    have c₁ := h.kept h₁ same₁ rfl
    refine ⟨set₁, rest, _, k, ?_, curr_of_ne_leaf h₁ (join_ne_leaf _ _ _ _ _), hk,
      .inl ⟨rfl, color_join ..⟩, same₁⟩
    simp only [deleteFixedupBody, hparent, hsib, hred, hs.getNear, hs.getFar, hnear.getColor,
      hfar.getColor, if_pos hboth, run₁, c₁.getParent, parentRef, ok_bind, Frame.fill, ref_join]
  · cases hcb : b.color with
    | red =>
        have hskip := deleteInnerNephew_black h hcb
        obtain ⟨set₂, set₃, set₄, set₅, t', hp, hc, run₂, run₃, hb, run₄, run₅, hroot, heap,
          ⟨k, hk⟩, same⟩ := finish h short hcb
        refine ⟨set₅, [], t', k, ?_, heap, hk, .inr rfl, same⟩
        simp only [deleteFixedupBody, hparent, hsib, hred, hs.getNear, hs.getFar, hnear.getColor,
          hfar.getColor, hcb, reduceCtorEq, and_false, if_false, hskip, hp, hc, run₂, run₃, hb,
          run₄, run₅, ok_bind, hroot]
    | black =>
        have hca : a.color = .red := by
          cases hc : a.color with
          | red => rfl
          | black => exact absurd ⟨hc, hcb⟩ hboth
        obtain ⟨p, x, q, ha⟩ := exists_join s (ne_leaf_of_red hca)
        rw [hca] at ha
        subst ha
        obtain ⟨set₁, hinner, h₁, same₁⟩ := deleteInnerNephew_red h hcb
        obtain ⟨set₂, set₃, set₄, set₅, t', hp, hc, run₂, run₃, hb, run₄, run₅, hroot, heap,
          ⟨k, hk⟩, same⟩ := finish h₁ (short.inner_nephew hcb) (color_join ..)
        refine ⟨set₅, [], t', k, ?_, heap, hk, .inr rfl, same₁.trans same⟩
        simp only [deleteFixedupBody, hparent, hsib, hred, hs.getNear, hs.getFar, hnear.getColor,
          hca, reduceCtorEq, false_and, if_false, hinner, hp, hc, run₂, run₃, hb, run₄, run₅,
          ok_bind, hfar.getColor, hroot]

/-- The source tests for the left side; the other side is what is left. -/
theorem deleteFixedupStep_eq (h : Curr set (⟨s, c, e, sib⟩ :: rest) t) (real : sib ≠ .leaf) :
    deleteFixedupStep set (ref t) = deleteFixedupBody s set (ref t) := by
  have hj : Heap set (plug rest (join s c t e sib)) := h.heap
  have hne : ref t ≠ ref sib := by
    have hj' : Heap set (plug rest (join s.flip c sib e t)) := by
      rw [join_flip]
      exact hj
    exact Ne.symm (hj'.ref_ne real)
  rw [deleteFixedupStep, h.getParent]
  cases s with
  | left =>
      have hleft : getChild .left set (.node e.1) = .ok (ref t) := hj.getNear
      simp only [parentRef, ok_bind, hleft, if_pos]
  | right =>
      have hleft : getChild .left set (.node e.1) = .ok (ref sib) := hj.getFar
      simp only [parentRef, ok_bind, hleft, if_neg hne]

end Body

/-- One round of the fix-up: the focus moves up, or turns red, which ends it. -/
theorem deleteFixedupStep_spec {f : Frame (Nat × α)} {n : Nat}
    (h : Curr set (f :: rest) t) (short : ShortFocus (f :: rest) t n) (black : t.color = .black) :
    ∃ set' path' t' k, deleteFixedupStep set (ref t) = .ok (set', ref t') ∧
      Curr set' path' t' ∧ ShortFocus path' t' k ∧
      (path'.length < (f :: rest).length ∨ t'.color = .red) ∧
      SameEntries set set' (plug (f :: rest) t) (plug path' t') := by
  obtain ⟨s, c, e, sib⟩ := f
  obtain ⟨_, real⟩ := short.sibling
  rw [deleteFixedupStep_eq h real]
  obtain ⟨a, y, b, hsib⟩ := exists_join s real
  cases hcs : sib.color with
  | black =>
      rw [hcs] at hsib
      change sib = _ at hsib
      subst hsib
      have hget := h.getSibling
      rw [ref_join] at hget
      obtain ⟨set', path', t', k, run, curr, short', hpath, same⟩ :=
        deleteBody_black h short black h.getParent hget (deleteRedSibling_black h)
      refine ⟨set', path', t', k, run, curr, short', .inl ?_, same⟩
      rcases hpath with ⟨rfl, _⟩ | rfl <;> simp
  | red =>
      rw [hcs] at hsib
      change sib = _ at hsib
      subst hsib
      have hget := h.getSibling
      rw [ref_join] at hget
      obtain ⟨set₁, run₁, h₁, same₁⟩ := deleteRedSibling_red h
      obtain ⟨short₁, ca⟩ := short.red_sibling
      obtain ⟨_, real₁⟩ := short₁.sibling
      obtain ⟨a₁, y₁, b₁, ha⟩ := exists_join s real₁
      change a = join s a.color a₁ y₁ b₁ at ha
      rw [ca] at ha
      subst ha
      rw [ref_join] at run₁
      obtain ⟨set', path', t', k, run, curr, short', hpath, same⟩ :=
        deleteBody_black h₁ short₁ black h.getParent hget run₁
      refine ⟨set', path', t', k, run, curr, short', ?_, same₁.trans same⟩
      rcases hpath with ⟨_, hred⟩ | rfl
      · exact .inr hred
      · exact .inl (by simp)

theorem ref_plug_mem (f : Frame (Nat × α)) (rest : Path (Nat × α)) (t : ATree α) :
    ∃ a, ref (plug (f :: rest) t) = .node a ∧ a ∈ pathAddrs (f :: rest) := by
  induction rest generalizing f t with
  | nil =>
      obtain ⟨s, c, e, other⟩ := f
      exact ⟨e.1, by simp [plug, Frame.fill],
        (pathAddrs_cons_perm ..).mem_iff.mpr List.mem_cons_self⟩
  | cons g rest ih =>
      obtain ⟨s, c, e, other⟩ := f
      obtain ⟨a, ha, hmem⟩ := ih g (Frame.fill ⟨s, c, e, other⟩ t)
      exact ⟨a, ha, (pathAddrs_cons_perm ..).mem_iff.mpr
        (List.mem_cons_of_mem _ (List.mem_append_right _ hmem))⟩

/-- The loop goes on below the root while the focus is black. -/
theorem deleteFixedupGuard_spec (h : Heap set (plug path t)) :
    deleteFixedupGuard set (ref t) = .ok (!path.isEmpty && t.color == .black) := by
  rw [deleteFixedupGuard, h.root]
  cases path with
  | nil =>
      rw [if_pos (by rfl)]
      rfl
  | cons f rest =>
      have hne : ref t ≠ ref (plug (f :: rest) t) := by
        obtain ⟨a, ha, hmem⟩ := ref_plug_mem f rest t
        obtain ⟨_, _, hdis⟩ := h.apart
        rw [ha]
        cases t with
        | leaf => simp [ref]
        | node c l e r =>
            intro heq
            obtain rfl : e.1 = a := by simpa [ref] using heq
            exact hdis _ ((addrs_join .left c l e r _).mpr (.inr (.inl rfl))) hmem
      rw [if_neg hne, h.getColor]
      rfl

theorem deleteFixedupLoop_stop (fuel : Nat) (h : Heap set (plug path t))
    (stop : path = [] ∨ t.color = .red) :
    deleteFixedupLoop fuel set (ref t) = .ok (set, ref t) := by
  have hguard : deleteFixedupGuard set (ref t) = .ok false := by
    rw [deleteFixedupGuard_spec h]
    rcases stop with rfl | hred
    · rfl
    · rw [hred, show (Color.red == Color.black) = false from rfl, Bool.and_false]
  cases fuel with
  | zero => simp only [deleteFixedupLoop, hguard, ok_bind]; rfl
  | succ fuel => simp only [deleteFixedupLoop, hguard, ok_bind]; rfl

/-- The fix-up loop ends, at a red node or at the root. -/
theorem deleteFixedupLoop_spec (fuel : Nat) {set : Coset α} {path : Path (Nat × α)} {t : ATree α}
    {n : Nat} (h : Curr set path t) (short : ShortFocus path t n)
    (enough : path.length ≤ fuel ∨ t.color = .red) :
    ∃ set' path' t' k, deleteFixedupLoop fuel set (ref t) = .ok (set', ref t') ∧
      Curr set' path' t' ∧ ShortFocus path' t' k ∧ (path' = [] ∨ t'.color = .red) ∧
      SameEntries set set' (plug path t) (plug path' t') := by
  induction fuel generalizing set path t n with
  | zero =>
      have hstop : path = [] ∨ t.color = .red :=
        enough.imp_left (fun hle => List.length_eq_zero_iff.mp (Nat.le_zero.mp hle))
      exact ⟨set, path, t, n, deleteFixedupLoop_stop 0 h.heap hstop, h, short, hstop, .refl ..⟩
  | succ fuel ih =>
      by_cases hstop : path = [] ∨ t.color = .red
      · exact ⟨set, path, t, n, deleteFixedupLoop_stop _ h.heap hstop, h, short, hstop, .refl ..⟩
      · obtain ⟨hpath, hred⟩ := not_or.mp hstop
        have black : t.color = .black := by
          cases hc : t.color with
          | red => exact absurd hc hred
          | black => rfl
        cases path with
        | nil => exact absurd rfl hpath
        | cons f rest =>
            obtain ⟨set₁, path₁, t₁, n₁, run₁, h₁, short₁, progress, same₁⟩ :=
              deleteFixedupStep_spec h short black
            have hgo : deleteFixedupGuard set (ref t) = .ok true := by
              rw [deleteFixedupGuard_spec h.heap, black]
              rfl
            have enough₁ : path₁.length ≤ fuel ∨ t₁.color = .red := by
              have := enough.resolve_right hred
              exact progress.imp_left (fun hlt => by omega)
            obtain ⟨set', path', t', k, run, curr, short', exit, same⟩ := ih h₁ short₁ enough₁
            refine ⟨set', path', t', k, ?_, curr, short', exit, same₁.trans same⟩
            simp only [deleteFixedupLoop, hgo, ok_bind, if_true, run₁, run]

theorem deleteFixedup_spec {n : Nat} (h : Curr set path t) (short : ShortFocus path t n)
    (enough : path.length ≤ fuel set) :
    ∃ set' t', cosetDeleteFixedup set (ref t) = .ok set' ∧ Heap set' t' ∧
      (∃ m, Balanced t' m) ∧ t'.color = .black ∧ SameEntries set set' (plug path t) t' := by
  obtain ⟨set₁, path₁, t₁, n₁, run₁, h₁, short₁, exit, same₁⟩ :=
    deleteFixedupLoop_spec _ h short (.inl enough)
  obtain ⟨hbal, hblack⟩ := short₁.finish exit
  obtain ⟨set₂, run₂, h₂, same₂⟩ := h₁.heap.blacken
  refine ⟨set₂, _, ?_, h₂, hbal, hblack, same₁.trans same₂⟩
  simp only [cosetDeleteFixedup, run₁, ok_bind, run₂]

/-- The search ends at an element equal to the data, or at the hole it belongs into. -/
theorem searchLoop_spec (hc : Consistent set.fnComp) (data : α) (fuel : Nat)
    {path : Path (Nat × α)} {t : ATree α} (h : Heap set (plug path t))
    (sorted : Sorted set.fnComp (plug path t).entries) (b : Belongs set.fnComp path data)
    (enough : t.height < fuel) :
    (searchLoop set data fuel (ref t) = .ok .nil ∧ ∃ path', plug path' .leaf = plug path t ∧
      Belongs set.fnComp path' data) ∨
    ∃ path' c l e r, searchLoop set data fuel (ref t) = .ok (.node e.1) ∧
      plug path' (.node c l e r) = plug path t ∧ set.fnComp data e.2 = 0 := by
  induction fuel generalizing path t with
  | zero => exact absurd enough (Nat.not_lt_zero _)
  | succ fuel ih =>
      cases t with
      | leaf => exact .inl ⟨rfl, path, rfl, b⟩
      | node c l e r =>
          have hleft : Heap set (plug path (join .left c l e r)) := h
          have hright : Heap set (plug path (join .right c r e l)) := h
          have hl : getChild .left set (.node e.1) = .ok (ref l) := hleft.getNear
          have hr : getChild .right set (.node e.1) = .ok (ref r) := hright.getNear
          have hne : ref (.node c l e r) ≠ .nil := by simp [ref]
          rw [searchLoop, if_neg hne]
          simp only [ref, hleft.getData, ok_bind]
          simp only [ColorTree.height] at enough
          by_cases hlt : set.fnComp data e.2 < 0
          · have h' : Heap set (plug (⟨.left, c, e, r⟩ :: path) l) := h
            simp only [if_pos hlt, hl, ok_bind]
            exact ih h' sorted (b.descend hc sorted (fun _ => hlt) (by simp)) (by omega)
          · by_cases hgt : set.fnComp data e.2 > 0
            · have h' : Heap set (plug (⟨.right, c, e, l⟩ :: path) r) := h
              have sorted' : Sorted set.fnComp (plug path (join .right c r e l)).entries := sorted
              simp only [if_neg hlt, if_pos hgt, hr, ok_bind]
              exact ih h' sorted (b.descend hc sorted' (by simp)
                (fun _ => (hc.antisymm _ _).mpr hgt)) (by omega)
            · exact .inr ⟨path, c, l, e, r, by simp only [if_neg hlt, if_neg hgt], rfl, by omega⟩

/-- The search from the root. -/
theorem cosetSearch_spec (hc : Consistent set.fnComp) (v : Valid set t) (data : α) :
    (cosetSearch set data = .ok .nil ∧ ∀ x ∈ t.entries, set.fnComp data x.2 ≠ 0) ∨
    ∃ path c l e r, cosetSearch set data = .ok (.node e.1) ∧
      plug path (.node c l e r) = t ∧ set.fnComp data e.2 = 0 := by
  have root : set.root = ref t := v.heap.root
  have heap : Heap set (plug [] t) := v.heap
  have start : Belongs set.fnComp [] data := ⟨by simp [before], by simp [after]⟩
  rw [cosetSearch, root]
  rcases searchLoop_spec hc data (fuel set) heap v.sorted start v.height_lt with
    ⟨run, path, hole, belongs⟩ | found
  · exact .inl ⟨run, belongs.absent hc hole⟩
  · exact .inr found

theorem cosetExist_spec (hc : Consistent set.fnComp) (v : Valid set t) (data : α) :
    ∃ b, cosetExist set data = .ok b ∧
      (b = true ↔ ∃ x ∈ t.entries, set.fnComp data x.2 = 0) := by
  rcases cosetSearch_spec hc v data with ⟨run, absent⟩ | ⟨path, c, l, e, r, run, rfl, equal⟩
  · refine ⟨false, by rw [cosetExist, run]; rfl, by simpa using absent⟩
  · refine ⟨true, by rw [cosetExist, run]; rfl, iff_of_true rfl ⟨e, ?_, equal⟩⟩
    exact mem_entries_plug_join .left c l r e

/-- The smallest node of a subtree: the way to it goes left throughout. -/
theorem smallestLoop_spec (fuel : Nat) {path : Path (Nat × α)} {t : ATree α}
    (h : Heap set (plug path t)) (real : t ≠ .leaf) (enough : t.height < fuel) :
    ∃ lefts c e r, smallestLoop set fuel (ref t) = .ok (.node e.1) ∧
      plug lefts (.node c .leaf e r) = t ∧ before lefts = [] := by
  induction fuel generalizing path t with
  | zero => exact absurd enough (Nat.not_lt_zero _)
  | succ fuel ih =>
      cases t with
      | leaf => exact absurd rfl real
      | node c l e r =>
          have hleft : Heap set (plug path (join .left c l e r)) := h
          have hl : getChild .left set (.node e.1) = .ok (ref l) := hleft.getNear
          rw [smallestLoop, show ref (.node c l e r) = .node e.1 from rfl, hl, ok_bind]
          simp only [ColorTree.height] at enough
          by_cases hempty : l = .leaf
          · subst hempty
            exact ⟨[], c, e, r, if_pos rfl, rfl, rfl⟩
          · rw [if_neg (mt ref_eq_nil.mp hempty)]
            have h' : Heap set (plug (⟨.left, c, e, r⟩ :: path) l) := h
            obtain ⟨lefts, c', e', r', run, hplug, hbefore⟩ := ih h' hempty (by omega)
            refine ⟨lefts ++ [⟨.left, c, e, r⟩], c', e', r', run, ?_, ?_⟩
            · rw [plug_append, hplug]
              rfl
            · rw [before_append, hbefore]
              rfl

section Unlink
variable {c : Color} {l r child : ATree α} {e : Nat × α}

/-- What unlinking leaves of the rest of the state: the nodes that are not in the tree,
the unlinked one among them. -/
structure Unlinked (set set' : Coset α) (inside : List Nat) : Prop where
  fnComp : set'.fnComp = set.fnComp
  size : set'.size = set.size
  next : set'.next = set.next
  outside : ∀ b, b ∉ inside → set'.nodes b = set.nodes b

/-- A node was freed, and no other node outside the tree was touched. -/
structure Freed (set set' : Coset α) (a : Nat) (inside : List Nat) : Prop where
  gone : set'.nodes a = none
  outside : ∀ b, b ∉ inside → b ≠ a → set'.nodes b = set.nodes b

/-- `child->parent = dnode->parent`, also for the sentinel. -/
theorem setChildParent_spec {p : Ref} (v : Ref) (h : Holds set.nodes t p)
    (distinct : (addrs t).Nodup) :
    ∃ set', setParent set (ref t) v = .ok set' ∧ Holds set'.nodes t v ∧
      set'.root = set.root ∧ set'.nilColor = set.nilColor ∧ (t = .leaf → set'.nilParent = v) ∧
      set'.fnComp = set.fnComp ∧ set'.size = set.size ∧ set'.next = set.next ∧
      ∀ a, a ∉ addrs t → set'.nodes a = set.nodes a := by
  cases t with
  | leaf =>
      exact ⟨{ set with nilParent := v }, rfl, trivial, rfl, rfl, fun _ => rfl, rfl, rfl, rfl,
        fun _ _ => rfl⟩
  | node c l e r =>
      obtain ⟨set', run, holds, root, nil, kept⟩ := setParentOf_spec v h distinct
      rw [setParentOf, if_pos (by simp [ref])] at run
      exact ⟨set', run, holds, root, nil, by simp, kept.fnComp, kept.size, kept.next, kept.outside⟩

theorem unlink_spec (h : Heap set (plug path (.node c l e r))) (only : OnlyChild l r child) :
    ∃ set₁ set₂, setParent set (ref child) (parentRef path) = .ok set₁ ∧
      replaceChild set₁ (parentRef path) (.node e.1) (ref child) = .ok set₂ ∧
      Curr set₂ path child ∧ Unlinked set set₂ (addrs (plug path child)) ∧
      e.1 ∉ addrs (plug path child) := by
  obtain ⟨hpath, ht⟩ := h.at_focus
  obtain ⟨_, hl, hr⟩ := ht
  obtain ⟨hpathNodup, hnodup, hdisj⟩ := h.apart
  obtain ⟨hel, her, hlNodup, hrNodup, _⟩ := join_apart (s := .left) hnodup
  have memAll := addrs_join .left c l e r
  have hep : e.1 ∉ pathAddrs path := hdisj _ ((memAll _).mpr (.inr (.inl rfl)))
  have hchild : Holds set.nodes child (.node e.1) ∧ (addrs child).Nodup ∧ e.1 ∉ addrs child ∧
      ∀ a ∈ addrs child, a ∉ pathAddrs path := by
    rcases only with ⟨_, rfl⟩ | ⟨_, rfl⟩
    · exact ⟨hr, hrNodup, her, fun a ha => hdisj a ((memAll a).mpr (.inr (.inr ha)))⟩
    · exact ⟨hl, hlNodup, hel, fun a ha => hdisj a ((memAll a).mpr (.inl ha))⟩
  obtain ⟨hholds, hcNodup, hec, hcp⟩ := hchild
  obtain ⟨set₁, run₁, holds₁, root₁, nil₁, sent₁, comp₁, size₁, next₁, out₁⟩ :=
    setChildParent_spec (parentRef path) hholds hcNodup
  have hpath₁ : HoldsPath set₁.nodes path (.node e.1) := by
    refine hpath.frame (fun a ha => out₁ a (fun hm => hcp a hm (mem_pathAddrs.mpr ha)))
  obtain ⟨set₂, run₂, path₂, root₂, nil₂, kept₂⟩ :=
    replaceChild_spec (ref child) hpath₁ hpathNodup hep
  have hdistinct : (addrs (plug path child)).Nodup := by
    refine (addrs_plug_perm ..).nodup_iff.mpr (List.nodup_append.mpr ⟨hpathNodup, hcNodup, ?_⟩)
    rintro a ha b hb rfl
    exact hcp a hb ha
  refine ⟨set₁, set₂, run₁, run₂, ⟨⟨?_, ?_, ?_, hdistinct⟩, ?_⟩,
    ⟨kept₂.fnComp.trans comp₁, kept₂.size.trans size₁, kept₂.next.trans next₁, ?_⟩, ?_⟩
  · exact nil₂.trans (nil₁.trans h.nilBlack)
  · refine holds_plug.mpr ⟨path₂, holds₁.frame (fun a ha => kept₂.outside a (hcp a ha))⟩
  · rw [root₂]
    cases path with
    | nil => simp [plug]
    | cons f rest =>
        rw [if_neg (List.cons_ne_nil f rest), root₁, h.root]
        exact ref_plug f rest _ _
  · intro hleaf
    rw [kept₂.nilParent, sent₁ hleaf]
  · intro b hb
    have apart := mt (addrs_plug_perm path child).mem_iff.mpr hb
    rw [List.mem_append, not_or] at apart
    rw [kept₂.outside _ apart.1, out₁ _ apart.2]
  · intro hm
    rcases List.mem_append.mp ((addrs_plug_perm ..).mem_iff.mp hm) with hm | hm
    · exact hep hm
    · exact hec hm

/-- The fix-up and the release of the unlinked node. -/
theorem rebalance_spec {p x y : Ref} {d : α} {a : Nat} (h : Curr set path child)
    (cell : set.nodes a = some (cell .left p x y d c)) (outside : a ∉ addrs (plug path child))
    (red : c = .red → (∃ m, Balanced (plug path child) m) ∧ (plug path child).color = .black)
    (black : c = .black → ∃ k, ShortFocus path child k) (enough : path.length ≤ fuel set) :
    ∃ set₁ set₂ t', rebalance set (.node a) (ref child) = .ok set₁ ∧
      freeNode set₁ (.node a) = .ok set₂ ∧ Heap set₂ t' ∧ (∃ m, Balanced t' m) ∧
      t'.color = .black ∧ t'.entries = (plug path child).entries ∧
      set₂.fnComp = set.fnComp ∧ set₂.size = set.size ∧ set₂.next = set.next ∧
      Freed set set₂ a (addrs (plug path child)) := by
  obtain ⟨set₁, t', run₁, heap₁, bal, hblack, same⟩ : ∃ set₁ t',
      rebalance set (.node a) (ref child) = .ok set₁ ∧ Heap set₁ t' ∧ (∃ m, Balanced t' m) ∧
      t'.color = .black ∧ SameEntries set set₁ (plug path child) t' := by
    cases c with
    | red =>
        obtain ⟨bal, hb⟩ := red rfl
        refine ⟨set, _, ?_, h.heap, bal, hb, .refl ..⟩
        simp only [rebalance, getColor_cell cell, ok_bind, reduceCtorEq, if_false]
    | black =>
        obtain ⟨k, hk⟩ := black rfl
        obtain ⟨set₁, t', run, heap, bal, hb, same⟩ := deleteFixedup_spec h hk enough
        refine ⟨set₁, t', ?_, heap, bal, hb, same⟩
        simp only [rebalance, getColor_cell cell, ok_bind, if_true, run]
  have hcell : set₁.nodes a = some (Set.cell .left p x y d c) := by
    rw [same.kept.outside a outside, cell]
  have hout : a ∉ addrs t' := by
    rw [addrs_congr same.entries]
    exact outside
  have hfree : freeNode set₁ (.node a) =
      .ok { set₁ with nodes := Function.update set₁.nodes a none } := by
    simp only [freeNode, deref, hcell, ok_bind]
  refine ⟨set₁, _, t', run₁, hfree, ⟨heap₁.nilBlack, ?_, heap₁.root, heap₁.distinct⟩, bal, hblack,
    same.entries, same.kept.fnComp, same.kept.size, same.kept.next, Function.update_self .., ?_⟩
  · refine heap₁.holds.frame (fun b hb => Function.update_of_ne ?_ _ _)
    rintro rfl
    exact hout hb
  · intro b hb ne
    exact (Function.update_of_ne ne _ _).trans (same.kept.outside b hb)

end Unlink

/-- The data of the successor is copied into a node above it. -/
theorem copyData_spec {c c₀ : Color} {e₀ : Nat × α} {a : Nat} {d : α} {x y p : Ref}
    {lefts up : Path (Nat × α)} {l₀ child : ATree α}
    (h : Curr set (lefts ++ ⟨.right, c₀, e₀, l₀⟩ :: up) child)
    (cell : set.nodes a = some (cell .left p x y d c)) (ne : a ≠ e₀.1) :
    ∃ set', copyData set (.node e₀.1) (.node a) = .ok set' ∧
      Curr set' (lefts ++ ⟨.right, c₀, (e₀.1, d), l₀⟩ :: up) child ∧
      Unlinked set set' (addrs (plug (lefts ++ ⟨.right, c₀, e₀, l₀⟩ :: up) child)) := by
  have view : ∀ e : Nat × α, plug (lefts ++ ⟨.right, c₀, e, l₀⟩ :: up) child =
      plug up (join .right c₀ (plug lefts child) e l₀) := by
    intro e
    rw [plug_append]
    rfl
  have heap := h.heap
  rw [view] at heap
  obtain ⟨set', run, heap', kept⟩ := heap.setData d
  rw [← view (e₀.1, d)] at heap'
  have hparent : parentRef (lefts ++ ⟨.right, c₀, (e₀.1, d), l₀⟩ :: up) =
      parentRef (lefts ++ ⟨.right, c₀, e₀, l₀⟩ :: up) := by
    cases lefts <;> rfl
  have hcopy : copyData set (.node e₀.1) (.node a) = .ok set' := by
    rw [copyData, if_pos (by simpa using ne), getData_cell cell, ok_bind, run]
  refine ⟨set', hcopy, ⟨heap', fun hl => ?_⟩, ⟨kept.fnComp, kept.size, kept.next, ?_⟩⟩
  · rw [kept.nilParent, hparent]
    exact h.sentinel hl
  · rw [view]
    exact kept.outside

/-- Order is about the data only. -/
theorem sorted_iff {cmp : α → α → Int} {l : List (Nat × α)} :
    Sorted cmp l ↔ (l.map Prod.snd).Pairwise (fun x y => cmp x y < 0) := by
  rw [List.pairwise_map]
  rfl

/-- `coset_delete` once the nodes to unlink (`e`) and to overwrite (`curr`) are known;
`path'` is the path as the copied data leaves it. -/
theorem cosetDelete_tail {data : α} {c : Color} {l r child : ATree α} {e : Nat × α}
    {curr lref rref : Ref} (path' : Path (Nat × α)) (v : Valid set (plug path (.node c l e r)))
    (only : OnlyChild l r child) (found : cosetSearch set data = .ok curr) (hcurr : curr ≠ .nil)
    (hleft : getChild .left set curr = .ok lref) (hright : getChild .right set curr = .ok rref)
    (choose : chooseRemoved set curr lref rref = .ok (.node e.1))
    (copy : ∀ set₂, Curr set₂ path child → set₂.nodes e.1 = set.nodes e.1 → ∃ set₃,
      copyData set₂ curr (.node e.1) = .ok set₃ ∧ Curr set₃ path' child ∧
      Unlinked set₂ set₃ (addrs (plug path child)))
    (fits : ∀ n k, Fits path n k → Fits path' n k)
    (same : addrs (plug path' child) = addrs (plug path child))
    (length : (plug path' child).entries.length + 1 =
      (plug path (.node c l e r)).entries.length) :
    ∃ set' t', cosetDelete set data = .ok set' ∧ set'.fnComp = set.fnComp ∧ Heap set' t' ∧
      (∃ m, Balanced t' m) ∧ t'.color = .black ∧ t'.entries = (plug path' child).entries ∧
      set'.size = set.size - 1 ∧ set'.next = set.next ∧ Freed set set' e.1 (addrs t') := by
  have h := v.heap
  have hl : Heap set (plug path (join .left c l e r)) := h
  have hr : Heap set (plug path (join .right c r e l)) := h
  have cell : set.nodes e.1 = some (Set.cell .left (parentRef path) (ref l) (ref r) e.2 c) := hl.cell
  have hdl : getChild .left set (.node e.1) = .ok (ref l) := hl.getNear
  have hdr : getChild .right set (.node e.1) = .ok (ref r) := hr.getNear
  have hchild : (if ref l ≠ .nil then ref l else ref r) = ref child := by
    rcases only with ⟨rfl, rfl⟩ | ⟨rfl, rfl⟩
    · rfl
    · split
      · rfl
      · next hn => rw [not_not.mp hn]; rfl
  obtain ⟨set₁, set₂, run₁, run₂, curr₂, un₂, hout⟩ := unlink_spec h only
  obtain ⟨set₃, run₃, curr₃, un₃⟩ := copy set₂ curr₂ (un₂.outside _ hout)
  obtain ⟨m, hm⟩ := v.balanced
  obtain ⟨n, hbal, hfits⟩ := fits_of_plug hm v.black
  have hsize : set₃.size = set.size := un₃.size.trans un₂.size
  have enough : path'.length ≤ fuel { set₃ with size := set₃.size - 1 } := by
    have h₁ := length_path_le path' child
    have h₂ := v.size
    change path'.length ≤ (set₃.size - 1).toNat + 1
    omega
  have curr₄ : Curr { set₃ with size := set₃.size - 1 } path' child :=
    ⟨⟨curr₃.heap.nilBlack, curr₃.heap.holds, curr₃.heap.root, curr₃.heap.distinct⟩, curr₃.sentinel⟩
  have cell₄ : ({ set₃ with size := set₃.size - 1 } : Coset α).nodes e.1 =
      some (Set.cell .left (parentRef path) (ref l) (ref r) e.2 c) := by
    rw [← cell, ← un₂.outside _ hout, ← un₃.outside _ hout]
  obtain ⟨set₅, set₆, t', run₅, run₆, heap, bal, black, entries, comp, size, next, freed⟩ :=
    rebalance_spec curr₄ cell₄ (by rw [same]; exact hout)
      (by
        rintro rfl
        exact only.plug hbal (fits _ _ hfits))
      (by
        rintro rfl
        exact only.short hbal (fits _ _ hfits))
      enough
  refine ⟨set₆, t', ?_, ?_, heap, bal, black, entries, ?_, ?_, freed.gone, ?_⟩
  · simp only [cosetDelete, found, ok_bind, if_neg hcurr, hleft, hright, choose, hdl, hdr, hchild,
      hl.joinParent, run₁, run₂, run₃, run₅, run₆]
  · exact comp.trans (un₃.fnComp.trans un₂.fnComp)
  · rw [size, ← hsize]
  · exact next.trans (un₃.next.trans un₂.next)
  · intro b hb ne
    rw [addrs_congr entries] at hb
    have hb' : b ∉ addrs (plug path child) := same ▸ hb
    exact (freed.outside b hb ne).trans ((un₃.outside b hb').trans (un₂.outside b hb'))

/-- The node has at most one child: it is the one that is freed when it is deleted. -/
def Sole (set : Coset α) (p : Ref) : Prop :=
  ∃ l r, getChild .left set p = .ok l ∧ getChild .right set p = .ok r ∧ (l = .nil ∨ r = .nil)

/-- The element equal to the data is removed with its node, or it is overwritten with the
next one, whose node is removed. -/
inductive Removal (set set' : Coset α) (x : Nat × α) (t t' : ATree α) : Prop where
  | self {l r} (sole : Sole set (.node x.1)) (old : t.entries = l ++ x :: r)
      (new : t'.entries = l ++ r) (freed : Freed set set' x.1 (addrs t'))
  | successor {l d r} (both : ¬ Sole set (.node x.1)) (old : t.entries = l ++ x :: d :: r)
      (new : t'.entries = l ++ (x.1, d.2) :: r) (freed : Freed set set' d.1 (addrs t'))

/-- In the order of the data one element is taken out. -/
theorem Removal.data {set' : Coset α} {t' : ATree α} {x : Nat × α}
    (h : Removal set set' x t t') : ∃ l r, t.entries.map Prod.snd = l ++ x.2 :: r ∧
      t'.entries.map Prod.snd = l ++ r := by
  cases h with
  | @self l r sole old new freed =>
      exact ⟨l.map Prod.snd, r.map Prod.snd, by rw [old]; simp, by rw [new]; simp⟩
  | @successor l d r both old new freed =>
      exact ⟨l.map Prod.snd, d.2 :: r.map Prod.snd, by rw [old]; simp, by rw [new]; simp⟩

/-- No node joins the tree. -/
theorem Removal.addrs_sub {set' : Coset α} {t' : ATree α} {x : Nat × α}
    (h : Removal set set' x t t') : ∀ a ∈ addrs t', a ∈ addrs t := by
  intro a ha
  cases h with
  | self sole old new freed =>
      rw [addrs, new] at ha
      rw [addrs, old]
      simp only [List.map_append, List.map_cons, List.mem_append, List.mem_cons] at ha ⊢
      exact ha.imp_right .inr
  | successor both old new freed =>
      rw [addrs, new] at ha
      rw [addrs, old]
      simp only [List.map_append, List.map_cons, List.mem_append, List.mem_cons] at ha ⊢
      exact ha.imp_right (.imp_right .inr)

/-- What a deletion leaves. -/
structure Deleted (set set' : Coset α) (x : Nat × α) (t t' : ATree α) : Prop where
  fnComp : set'.fnComp = set.fnComp
  heap : Heap set' t'
  balanced : ∃ m, Balanced t' m
  black : t'.color = .black
  size : set'.size = set.size - 1
  next : set'.next = set.next
  removal : Removal set set' x t t'

theorem Deleted.valid {set' : Coset α} {t' : ATree α} {x : Nat × α}
    (h : Deleted set set' x t t') (v : Valid set t) : Valid set' t' := by
  obtain ⟨l, r, old, new⟩ := h.removal.data
  refine ⟨h.heap, h.balanced, h.black, ?_, ?_, fun a ha => ?_⟩
  · have hs := sorted_iff.mp v.sorted
    rw [old] at hs
    rw [h.fnComp, sorted_iff, new]
    exact hs.sublist (List.Sublist.append_left (List.sublist_cons_self _ r) l)
  · have h₁ := congrArg List.length old
    have h₂ := congrArg List.length new
    simp only [List.length_map, List.length_append, List.length_cons] at h₁ h₂
    have := v.size
    have := h.size
    omega
  · rw [h.next]
    exact v.fresh a (h.removal.addrs_sub a ha)

section Cases
variable {data : α} {up : Path (Nat × α)} {c₀ : Color} {l₀ r₀ : ATree α} {e₀ : Nat × α}

theorem sole_iff (h : Heap set (plug up (.node c₀ l₀ e₀ r₀))) :
    Sole set (.node e₀.1) ↔ l₀ = .leaf ∨ r₀ = .leaf := by
  have hleft : Heap set (plug up (join .left c₀ l₀ e₀ r₀)) := h
  have hright : Heap set (plug up (join .right c₀ r₀ e₀ l₀)) := h
  have hl : getChild .left set (.node e₀.1) = .ok (ref l₀) := hleft.getNear
  have hr : getChild .right set (.node e₀.1) = .ok (ref r₀) := hright.getNear
  constructor
  · rintro ⟨l, r, hl', hr', few⟩
    rw [hl] at hl'
    rw [hr] at hr'
    cases hl'
    cases hr'
    exact few.imp ref_eq_nil.mp ref_eq_nil.mp
  · exact fun few => ⟨_, _, hl, hr, few.imp ref_eq_nil.mpr ref_eq_nil.mpr⟩

/-- The node itself is unlinked. -/
theorem cosetDelete_self (v : Valid set (plug up (.node c₀ l₀ e₀ r₀)))
    (found : cosetSearch set data = .ok (.node e₀.1)) (few : l₀ = .leaf ∨ r₀ = .leaf) :
    ∃ set' t', cosetDelete set data = .ok set' ∧
      Deleted set set' e₀ (plug up (.node c₀ l₀ e₀ r₀)) t' := by
  have hleft : Heap set (plug up (join .left c₀ l₀ e₀ r₀)) := v.heap
  have hright : Heap set (plug up (join .right c₀ r₀ e₀ l₀)) := v.heap
  have hl : getChild .left set (.node e₀.1) = .ok (ref l₀) := hleft.getNear
  have hr : getChild .right set (.node e₀.1) = .ok (ref r₀) := hright.getNear
  obtain ⟨child, only⟩ : ∃ child, OnlyChild l₀ r₀ child := by
    rcases few with rfl | rfl
    · exact ⟨r₀, .inl ⟨rfl, rfl⟩⟩
    · exact ⟨l₀, .inr ⟨rfl, rfl⟩⟩
  have choose : chooseRemoved set (.node e₀.1) (ref l₀) (ref r₀) = .ok (.node e₀.1) := by
    rw [chooseRemoved, if_pos (few.imp ref_eq_nil.mpr ref_eq_nil.mpr)]
  have hentries := only.entries
  obtain ⟨set', t', run, comp, heap, bal, black, entries', size, next, freed⟩ :=
    cosetDelete_tail up v only found (by simp) hl hr choose
      (fun set₂ h₂ _ => ⟨set₂, by rw [copyData, if_neg (by simp)], h₂, ⟨rfl, rfl, rfl, fun _ _ => rfl⟩⟩)
      (fun _ _ h => h) rfl (by
        rw [entries_plug, entries_plug, ← hentries]
        simp only [entries, List.length_append, List.length_cons]
        omega)
  refine ⟨set', t', run, comp, heap, bal, black, size, next,
    @Removal.self _ _ _ _ _ _ (before up ++ l₀.entries) (r₀.entries ++ after up)
      ((sole_iff v.heap).mpr few) ?_ ?_ freed⟩
  · rw [entries_plug]
    simp [entries]
  · rw [entries', entries_plug, ← hentries]
    simp

/-- The successor is unlinked, and its data moves up. -/
theorem cosetDelete_successor (v : Valid set (plug up (.node c₀ l₀ e₀ r₀)))
    (found : cosetSearch set data = .ok (.node e₀.1)) (both : ¬ (l₀ = .leaf ∨ r₀ = .leaf)) :
    ∃ set' t', cosetDelete set data = .ok set' ∧
      Deleted set set' e₀ (plug up (.node c₀ l₀ e₀ r₀)) t' := by
  have hleft : Heap set (plug up (join .left c₀ l₀ e₀ r₀)) := v.heap
  have hright : Heap set (plug up (join .right c₀ r₀ e₀ l₀)) := v.heap
  have hl : getChild .left set (.node e₀.1) = .ok (ref l₀) := hleft.getNear
  have hr : getChild .right set (.node e₀.1) = .ok (ref r₀) := hright.getNear
  have hsubtree : Heap set (plug (⟨.right, c₀, e₀, l₀⟩ :: up) r₀) := v.heap
  have hheight : r₀.height < fuel set := by
    have h₁ := height_le_entries r₀
    have h₂ := v.size
    rw [entries_plug] at h₂
    simp only [entries, List.length_append, List.length_cons] at h₂
    unfold fuel
    omega
  obtain ⟨lefts, c, e, r, hsmall, hsub, hbefore⟩ :=
    smallestLoop_spec (fuel set) hsubtree (not_or.mp both).2 hheight
  have hpath : plug (lefts ++ ⟨.right, c₀, e₀, l₀⟩ :: up) (.node c .leaf e r) =
      plug up (.node c₀ l₀ e₀ r₀) := by
    rw [plug_append, hsub]
    rfl
  have choose : chooseRemoved set (.node e₀.1) (ref l₀) (ref r₀) = .ok (.node e.1) := by
    rw [chooseRemoved, if_neg (by rw [ref_eq_nil, ref_eq_nil]; exact both)]
    exact hsmall
  have v' : Valid set (plug (lefts ++ ⟨.right, c₀, e₀, l₀⟩ :: up) (.node c .leaf e r)) := by
    rw [hpath]
    exact v
  have cell : set.nodes e.1 = some (Set.cell .left
      (parentRef (lefts ++ ⟨.right, c₀, e₀, l₀⟩ :: up)) .nil (ref r) e.2 c) := by
    have hj : Heap set (plug (lefts ++ ⟨.right, c₀, e₀, l₀⟩ :: up)
        (join .left c .leaf e r)) := v'.heap
    exact hj.cell
  have only : OnlyChild .leaf r r := .inl ⟨rfl, rfl⟩
  have hsubEntries : r₀.entries = e :: (r.entries ++ after lefts) := by
    rw [← hsub, entries_plug, hbefore]
    simp [entries]
  have ne : e.1 ≠ e₀.1 := by
    intro heq
    obtain ⟨_, hnodup, _⟩ := v.heap.apart
    obtain ⟨_, hout, _⟩ := join_apart (s := .left) hnodup
    refine hout ?_
    rw [addrs, hsubEntries, ← heq]
    exact List.mem_cons_self
  have hside : ∀ x : Nat × α, (plug (lefts ++ ⟨.right, c₀, x, l₀⟩ :: up) r).entries =
      before up ++ (l₀.entries ++ [x]) ++ r.entries ++ (after lefts ++ after up) := by
    intro x
    rw [entries_plug, before_append, after_append, hbefore]
    simp [before, after]
  have hnodeEntries : (plug up (.node c₀ l₀ e₀ r₀)).entries =
      before up ++ (l₀.entries ++ e₀ :: e :: (r.entries ++ after lefts)) ++ after up := by
    rw [entries_plug]
    simp only [entries, hsubEntries]
  obtain ⟨set', t', run, comp, heap, bal, black, entries', size, next, freed⟩ :=
    cosetDelete_tail (lefts ++ ⟨.right, c₀, (e₀.1, e.2), l₀⟩ :: up) v' only found
      (by simp) hl hr choose
      (fun set₂ h₂ hsame => copyData_spec h₂ (by rw [hsame]; exact cell) ne)
      (fun _ _ h => h.setEntry)
      (by
        rw [addrs, addrs, hside, hside]
        simp)
      (by
        rw [hpath, hside, hnodeEntries]
        simp only [List.length_append, List.length_cons, List.length_nil]
        omega)
  refine ⟨set', t', run, comp, heap, bal, black, size, next,
    @Removal.successor _ _ _ _ _ _ (before up ++ l₀.entries) e
      (r.entries ++ (after lefts ++ after up)) (mt (sole_iff v.heap).mp both) ?_ ?_ freed⟩
  · rw [hnodeEntries]
    simp
  · rw [entries', hside]
    simp

end Cases

/-- `coset_delete` removes the element equal to the data, if there is one. -/
theorem cosetDelete_node (hc : Consistent set.fnComp) (v : Valid set t) (data : α) :
    (cosetDelete set data = .ok set ∧ ∀ x ∈ t.entries, set.fnComp data x.2 ≠ 0) ∨
      ∃ set' t' x, cosetDelete set data = .ok set' ∧ set.fnComp data x.2 = 0 ∧
        Deleted set set' x t t' := by
  rcases cosetSearch_spec hc v data with ⟨found, absent⟩ | ⟨up, c₀, l₀, e₀, r₀, found, rfl, hzero⟩
  · refine .inl ⟨?_, absent⟩
    simp only [cosetDelete, found, ok_bind, if_true]
  · by_cases few : l₀ = .leaf ∨ r₀ = .leaf
    · obtain ⟨set', t', run, deleted⟩ := cosetDelete_self v found few
      exact .inr ⟨set', t', e₀, run, hzero, deleted⟩
    · obtain ⟨set', t', run, deleted⟩ := cosetDelete_successor v found few
      exact .inr ⟨set', t', e₀, run, hzero, deleted⟩

/-- The same, about the data in order. -/
theorem cosetDelete_spec (hc : Consistent set.fnComp) (v : Valid set t) (data : α) :
    ∃ set' t', cosetDelete set data = .ok set' ∧ set'.fnComp = set.fnComp ∧ Valid set' t' ∧
      ((set' = set ∧ t' = t ∧ ∀ x ∈ t.entries, set.fnComp data x.2 ≠ 0) ∨
        ∃ l x r, t.entries.map Prod.snd = l ++ x :: r ∧ set.fnComp data x = 0 ∧
          t'.entries.map Prod.snd = l ++ r) := by
  rcases cosetDelete_node hc v data with ⟨run, absent⟩ | ⟨set', t', x, run, equal, deleted⟩
  · exact ⟨set, t, run, rfl, v, .inl ⟨rfl, rfl, absent⟩⟩
  · obtain ⟨l, r, old, new⟩ := deleted.removal.data
    exact ⟨set', t', run, deleted.fnComp, deleted.valid v, .inr ⟨l, x.2, r, old, equal, new⟩⟩

end Colinlib.Source.Set
