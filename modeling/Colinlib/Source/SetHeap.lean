import Colinlib.Source.Set

/-!
# The set's nodes as a tree with a focus

`Heap set t` says that the nodes reachable from the root are the tree `t`, each
with the address, data, colour and parent link the tree gives it. The rules here
read and write at a focus: recolouring and rotation replace the subtree there
and leave every other cell alone.
-/
namespace Colinlib.Source.Set
open Colinlib.Theory Colinlib.Theory.CMemory Colinlib.Theory.RedBlack
open Colinlib.Theory.RedBlack.ColorTree

variable {α : Type}

/-- Entries are addresses with their data. -/
abbrev ATree (α : Type) := ColorTree (Nat × α)

def ref : ATree α → Ref
  | .leaf => .nil
  | .node _ _ e _ => .node e.1

def addrs (t : ATree α) : List Nat := t.entries.map Prod.fst

/-- The cells of `nodes` are the tree `t`, hung under `parent`. -/
def Holds (nodes : Nat → Option (Node α)) : ATree α → Ref → Prop
  | .leaf, _ => True
  | .node c l e r, parent =>
    nodes e.1 = some { parent, left := ref l, right := ref r, data := e.2, color := c } ∧
      Holds nodes l (.node e.1) ∧ Holds nodes r (.node e.1)

def parentRef : Path (Nat × α) → Ref
  | [] => .nil
  | f :: _ => .node f.entry.1

/-- The cell of a node whose child on side `s` is `near`. -/
def cell (s : Side) (parent near far : Ref) (data : α) (color : Color) : Node α :=
  match s with
  | .left => { parent, left := near, right := far, data, color }
  | .right => { parent, left := far, right := near, data, color }

/-- The cells of `nodes` are the path `path`, with `hole` hung in its hole. -/
def HoldsPath (nodes : Nat → Option (Node α)) : Path (Nat × α) → Ref → Prop
  | [], _ => True
  | f :: rest, hole =>
    nodes f.entry.1 =
        some (cell f.side (parentRef rest) hole (ref f.other) f.entry.2 f.color) ∧
      Holds nodes f.other (.node f.entry.1) ∧ HoldsPath nodes rest (.node f.entry.1)

structure Heap (set : Coset α) (t : ATree α) : Prop where
  nilBlack : set.nilColor = .black
  holds : Holds set.nodes t .nil
  root : set.root = ref t
  distinct : (addrs t).Nodup

/-- Nothing but cells of the tree, and possibly the root, has changed. -/
structure Kept (set set' : Coset α) (inside : List Nat) : Prop where
  nilParent : set'.nilParent = set.nilParent
  fnComp : set'.fnComp = set.fnComp
  size : set'.size = set.size
  next : set'.next = set.next
  outside : ∀ a, a ∉ inside → set'.nodes a = set.nodes a

theorem Kept.refl (set : Coset α) (l : List Nat) : Kept set set l :=
  ⟨rfl, rfl, rfl, rfl, fun _ _ => rfl⟩

theorem Kept.trans {s₁ s₂ s₃ : Coset α} {l : List Nat} (h : Kept s₁ s₂ l) (h' : Kept s₂ s₃ l) :
    Kept s₁ s₃ l :=
  ⟨h'.nilParent.trans h.nilParent, h'.fnComp.trans h.fnComp, h'.size.trans h.size,
    h'.next.trans h.next, fun a ha => (h'.outside a ha).trans (h.outside a ha)⟩

theorem Kept.congr {s₁ s₂ : Coset α} {l l' : List Nat} (h : Kept s₁ s₂ l) (e : l = l') :
    Kept s₁ s₂ l' := e ▸ h

@[simp] theorem ref_join (s : Side) (c : Color) (near : ATree α) (e : Nat × α) (far : ATree α) :
    ref (join s c near e far) = .node e.1 := by cases s <;> rfl

@[simp] theorem ref_paint (c : Color) (t : ATree α) : ref (t.paint c) = ref t := by
  cases t <;> rfl

theorem ref_eq_nil {t : ATree α} : ref t = .nil ↔ t = .leaf := by
  cases t <;> simp [ref]

theorem ref_plug (f : Frame (Nat × α)) (rest : Path (Nat × α)) (t t' : ATree α) :
    ref (plug (f :: rest) t) = ref (plug (f :: rest) t') := by
  induction rest generalizing f t t' with
  | nil => simp [plug, Frame.fill]
  | cons g rest ih => exact ih g (f.fill t) (f.fill t')

theorem addrs_join (s : Side) (c : Color) (near : ATree α) (e : Nat × α) (far : ATree α) (a : Nat) :
    a ∈ addrs (join s c near e far) ↔ a ∈ addrs near ∨ a = e.1 ∨ a ∈ addrs far := by
  cases s
  · simp [addrs, join, entries]
  · simp only [addrs, join, entries, List.map_append, List.map_cons, List.mem_append,
      List.mem_cons]
    tauto

/-- The addresses of a tree are determined by its entries. -/
theorem addrs_congr {t t' : ATree α} (h : t.entries = t'.entries) : addrs t = addrs t' := by
  rw [addrs, addrs, h]

theorem Holds.frame {nodes nodes' : Nat → Option (Node α)} {t : ATree α} {p : Ref}
    (h : Holds nodes t p) (same : ∀ a ∈ addrs t, nodes' a = nodes a) : Holds nodes' t p := by
  induction t generalizing p with
  | leaf => trivial
  | node c l e r ihl ihr =>
      have mem : ∀ a, a ∈ addrs (.node c l e r) ↔ a ∈ addrs l ∨ a = e.1 ∨ a ∈ addrs r :=
        addrs_join .left c l e r
      refine ⟨?_, ihl h.2.1 ?_, ihr h.2.2 ?_⟩
      · rw [same e.1 ((mem _).mpr (.inr (.inl rfl)))]
        exact h.1
      · exact fun a ha => same a ((mem a).mpr (.inl ha))
      · exact fun a ha => same a ((mem a).mpr (.inr (.inr ha)))

theorem HoldsPath.frame {nodes nodes' : Nat → Option (Node α)} {path : Path (Nat × α)} {p : Ref}
    (h : HoldsPath nodes path p)
    (same : ∀ a, a ∈ (before path).map Prod.fst ∨ a ∈ (after path).map Prod.fst →
      nodes' a = nodes a) : HoldsPath nodes' path p := by
  induction path generalizing p with
  | nil => trivial
  | cons f rest ih =>
      obtain ⟨s, c, e, other⟩ := f
      have here : nodes' e.1 = nodes e.1 := by
        apply same
        cases s
        · exact .inr (by simp [after])
        · exact .inl (by simp [before])
      have inOther : ∀ a ∈ addrs other, nodes' a = nodes a := by
        intro a ha
        apply same
        cases s
        · exact .inr (by simp only [after, List.map_append, List.map_cons, List.mem_append]
                         exact .inl (List.mem_cons_of_mem _ ha))
        · exact .inl (by simp only [before, List.map_append, List.mem_append]
                         exact .inr (.inl ha))
      have inRest : ∀ a, a ∈ (before rest).map Prod.fst ∨ a ∈ (after rest).map Prod.fst →
          nodes' a = nodes a := by
        intro a ha
        apply same
        cases s
        · exact ha.imp id (fun h => by simp only [after, List.map_append, List.mem_append]
                                       exact .inr h)
        · exact ha.imp (fun h => by simp only [before, List.map_append, List.mem_append]
                                    exact .inl h) id
      exact ⟨by rw [here]; exact h.1, h.2.1.frame inOther, ih h.2.2 inRest⟩

/-- Holding a tree with a focus is holding the path and the subtree. -/
theorem holds_plug {nodes : Nat → Option (Node α)} {path : Path (Nat × α)} {t : ATree α} :
    Holds nodes (plug path t) .nil ↔
      HoldsPath nodes path (ref t) ∧ Holds nodes t (parentRef path) := by
  induction path generalizing t with
  | nil => simp [plug, HoldsPath, parentRef]
  | cons f rest ih =>
      rw [plug, ih]
      obtain ⟨s, c, e, other⟩ := f
      cases s <;> simp only [Frame.fill, join, ref, Holds, HoldsPath, parentRef, cell] <;> tauto

theorem holds_join {nodes : Nat → Option (Node α)} (s : Side) {c : Color} {near far : ATree α}
    {e : Nat × α} {p : Ref} :
    Holds nodes (join s c near e far) p ↔
      nodes e.1 = some (cell s p (ref near) (ref far) e.2 c) ∧
        Holds nodes near (.node e.1) ∧ Holds nodes far (.node e.1) := by
  cases s
  · rfl
  · simp only [join, Holds]
    tauto

section Cell
variable {set : Coset α} {a : Nat} {s : Side} {p near far : Ref} {d : α} {c : Color}

theorem getNear_cell (h : set.nodes a = some (cell s p near far d c)) :
    getChild s set (.node a) = .ok near := by
  cases s <;> simp only [getChild, deref, h, ok_bind, cell]

theorem getFar_cell (h : set.nodes a = some (cell s p near far d c)) :
    getChild s.flip set (.node a) = .ok far := by
  cases s <;> simp only [getChild, deref, h, ok_bind, cell, Side.flip]

theorem setNear_cell (h : set.nodes a = some (cell s p near far d c)) (v : Ref) :
    setChild s set (.node a) v = .ok (store set a (cell s p v far d c)) := by
  cases s <;> simp only [setChild, deref, h, ok_bind, cell]

theorem setFar_cell (h : set.nodes a = some (cell s p near far d c)) (v : Ref) :
    setChild s.flip set (.node a) v = .ok (store set a (cell s p near v d c)) := by
  cases s <;> simp only [setChild, deref, h, ok_bind, cell, Side.flip]

theorem getParent_cell (h : set.nodes a = some (cell s p near far d c)) :
    getParent set (.node a) = .ok p := by
  cases s <;> simp only [getParent, deref, h, ok_bind, cell]

theorem setParent_cell (h : set.nodes a = some (cell s p near far d c)) (v : Ref) :
    setParent set (.node a) v = .ok (store set a (cell s v near far d c)) := by
  cases s <;> simp only [setParent, deref, h, ok_bind, cell]

theorem getColor_cell (h : set.nodes a = some (cell s p near far d c)) :
    getColor set (.node a) = .ok c := by
  cases s <;> simp only [getColor, deref, h, ok_bind, cell]

theorem setColor_cell (h : set.nodes a = some (cell s p near far d c)) (v : Color) :
    setColor set (.node a) v = .ok (store set a (cell s p near far d v)) := by
  cases s <;> simp only [setColor, deref, h, ok_bind, cell]

theorem getData_cell (h : set.nodes a = some (cell s p near far d c)) :
    getData set (.node a) = .ok d := by
  cases s <;> simp only [getData, deref, h, ok_bind, cell]

theorem setData_cell (h : set.nodes a = some (cell s p near far d c)) (v : α) :
    setData set (.node a) v = .ok (store set a (cell s p near far v c)) := by
  cases s <;> simp only [setData, deref, h, ok_bind, cell]

end Cell

@[simp] theorem store_self (set : Coset α) (a : Nat) (node : Node α) :
    (store set a node).nodes a = some node := Function.update_self ..

theorem store_other (set : Coset α) {a b : Nat} (node : Node α) (h : b ≠ a) :
    (store set a node).nodes b = set.nodes b := Function.update_of_ne h _ _

theorem kept_store (set : Coset α) {a : Nat} (node : Node α) {l : List Nat} (h : a ∈ l) :
    Kept set (store set a node) l :=
  ⟨rfl, rfl, rfl, rfl, fun b hb => store_other set node (by rintro rfl; exact hb h)⟩

def pathAddrs (path : Path (Nat × α)) : List Nat :=
  (before path).map Prod.fst ++ (after path).map Prod.fst

theorem addrs_plug_perm (path : Path (Nat × α)) (t : ATree α) :
    (addrs (plug path t)).Perm (pathAddrs path ++ addrs t) := by
  simp only [addrs, pathAddrs, entries_plug, List.map_append, List.append_assoc]
  exact List.Perm.append_left _ List.perm_append_comm

theorem addrs_join_perm (s : Side) (c : Color) (near : ATree α) (e : Nat × α) (far : ATree α) :
    (addrs (join s c near e far)).Perm (e.1 :: (addrs near ++ addrs far)) := by
  cases s
  · simp only [addrs, join, entries, List.map_append, List.map_cons]
    exact List.perm_middle
  · simp only [addrs, join, entries, List.map_append, List.map_cons]
    exact List.perm_middle.trans (List.Perm.cons _ List.perm_append_comm)

theorem addrs_plug_congr (path : Path (Nat × α)) {t t' : ATree α}
    (h : (addrs t).Perm (addrs t')) : (addrs (plug path t)).Perm (addrs (plug path t')) :=
  (addrs_plug_perm path t).trans ((h.append_left _).trans (addrs_plug_perm path t').symm)

theorem addrs_plug_leaf (path : Path (Nat × α)) : addrs (plug path .leaf) = pathAddrs path := by
  simp [addrs, pathAddrs, entries_plug, entries]

theorem pathAddrs_cons_perm (s : Side) (c : Color) (e : Nat × α) (other : ATree α)
    (rest : Path (Nat × α)) : (pathAddrs (⟨s, c, e, other⟩ :: rest)).Perm
      (e.1 :: (addrs other ++ pathAddrs rest)) := by
  rw [← addrs_plug_leaf]
  refine (addrs_plug_perm rest (join s c .leaf e other)).trans ?_
  refine ((addrs_join_perm s c .leaf e other).append_left _).trans ?_
  exact List.perm_append_comm

theorem mem_pathAddrs {path : Path (Nat × α)} {a : Nat} :
    a ∈ pathAddrs path ↔ a ∈ (before path).map Prod.fst ∨ a ∈ (after path).map Prod.fst :=
  List.mem_append

/-- The addresses at a focus are distinct, from each other and from the path's. -/
theorem Heap.apart {set : Coset α} {path : Path (Nat × α)} {t : ATree α}
    (h : Heap set (plug path t)) :
    (pathAddrs path).Nodup ∧ (addrs t).Nodup ∧ ∀ a ∈ addrs t, a ∉ pathAddrs path := by
  have nodup := (addrs_plug_perm path t).nodup_iff.mp h.distinct
  obtain ⟨hp, ht, hd⟩ := List.nodup_append.mp nodup
  exact ⟨hp, ht, fun a ha hpa => hd a hpa a ha rfl⟩

theorem join_apart {s : Side} {c : Color} {near far : ATree α} {e : Nat × α}
    (h : (addrs (join s c near e far)).Nodup) :
    e.1 ∉ addrs near ∧ e.1 ∉ addrs far ∧ (addrs near).Nodup ∧ (addrs far).Nodup ∧
      ∀ a ∈ addrs near, a ∉ addrs far := by
  have nodup := (addrs_join_perm s c near e far).nodup_iff.mp h
  obtain ⟨he, hrest⟩ := List.nodup_cons.mp nodup
  obtain ⟨hn, hf, hd⟩ := List.nodup_append.mp hrest
  exact ⟨fun hm => he (List.mem_append_left _ hm), fun hm => he (List.mem_append_right _ hm),
    hn, hf, fun a ha hfa => hd a ha a hfa rfl⟩

/-! ### Reading at the focus -/

theorem Heap.at_focus {set : Coset α} {path : Path (Nat × α)} {t : ATree α}
    (h : Heap set (plug path t)) :
    HoldsPath set.nodes path (ref t) ∧ Holds set.nodes t (parentRef path) :=
  holds_plug.mp h.holds

theorem Heap.getColor {set : Coset α} {path : Path (Nat × α)} {t : ATree α}
    (h : Heap set (plug path t)) : getColor set (ref t) = .ok t.color := by
  have ht := h.at_focus.2
  cases t with
  | leaf => simp only [ref, Set.getColor, h.nilBlack, ColorTree.color]
  | node c l e r => simp only [ref, Set.getColor, deref, ht.1, ok_bind, ColorTree.color]

theorem Heap.getParent {set : Coset α} {path : Path (Nat × α)} {t : ATree α}
    (h : Heap set (plug path t)) (real : t ≠ .leaf) :
    getParent set (ref t) = .ok (parentRef path) := by
  have ht := h.at_focus.2
  cases t with
  | leaf => exact absurd rfl real
  | node c l e r => simp only [ref, Set.getParent, deref, ht.1, ok_bind]

section Join
variable {set : Coset α} {path : Path (Nat × α)} {s : Side} {c : Color} {near far : ATree α}
  {e : Nat × α}

theorem Heap.cell (h : Heap set (plug path (join s c near e far))) :
    set.nodes e.1 = some (Set.cell s (parentRef path) (ref near) (ref far) e.2 c) :=
  ((holds_join s).mp h.at_focus.2).1

theorem Heap.getNear (h : Heap set (plug path (join s c near e far))) :
    getChild s set (.node e.1) = .ok (ref near) := getNear_cell h.cell

theorem Heap.getFar (h : Heap set (plug path (join s c near e far))) :
    getChild s.flip set (.node e.1) = .ok (ref far) := getFar_cell h.cell

theorem Heap.getData (h : Heap set (plug path (join s c near e far))) :
    getData set (.node e.1) = .ok e.2 := getData_cell h.cell

theorem Heap.joinColor (h : Heap set (plug path (join s c near e far))) :
    Set.getColor set (.node e.1) = .ok c := getColor_cell h.cell

theorem Heap.joinParent (h : Heap set (plug path (join s c near e far))) :
    Set.getParent set (.node e.1) = .ok (parentRef path) := getParent_cell h.cell

theorem Heap.focus_mem : e.1 ∈ addrs (plug path (join s c near e far)) :=
  (addrs_plug_perm ..).mem_iff.mpr
    (List.mem_append_right _ ((addrs_join ..).mpr (.inr (.inl rfl))))

/-- Writing new data and a new colour into the node at the focus. -/
theorem Heap.store (h : Heap set (plug path (join s c near e far))) (d' : α) (c' : Color) :
    Heap (store set e.1 (Set.cell s (parentRef path) (ref near) (ref far) d' c'))
      (plug path (join s c' near (e.1, d') far)) := by
  obtain ⟨hpath, ht⟩ := h.at_focus
  obtain ⟨_, hnear, hfar⟩ := (holds_join s).mp ht
  obtain ⟨_, hnodup, hdisj⟩ := h.apart
  obtain ⟨hen, hef, _, _, _⟩ := join_apart hnodup
  have hep : e.1 ∉ pathAddrs path := hdisj _ ((addrs_join ..).mpr (.inr (.inl rfl)))
  refine ⟨h.nilBlack, ?_, ?_, ?_⟩
  · refine holds_plug.mpr ⟨?_, (holds_join s).mpr ⟨store_self .., ?_, ?_⟩⟩
    · rw [ref_join] at hpath ⊢
      refine hpath.frame (fun a ha => store_other set _ ?_)
      rintro rfl
      exact hep (mem_pathAddrs.mpr ha)
    · refine hnear.frame (fun a ha => store_other set _ ?_)
      rintro rfl
      exact hen ha
    · refine hfar.frame (fun a ha => store_other set _ ?_)
      rintro rfl
      exact hef ha
  · change set.root = _
    rw [h.root]
    cases path with
    | nil => simp [plug]
    | cons f rest => exact ref_plug f rest _ _
  · have same : (addrs (join s c near e far)).Perm (addrs (join s c' near (e.1, d') far)) :=
      (addrs_join_perm ..).trans (addrs_join_perm s c' near (e.1, d') far).symm
    exact (addrs_plug_congr path same).nodup_iff.mp h.distinct

theorem Heap.setColor (h : Heap set (plug path (join s c near e far))) (c' : Color) :
    ∃ set', setColor set (.node e.1) c' = .ok set' ∧
      Heap set' (plug path (join s c' near e far)) ∧
      Kept set set' (addrs (plug path (join s c near e far))) :=
  ⟨_, setColor_cell h.cell c', h.store e.2 c', kept_store set _ Heap.focus_mem⟩

theorem Heap.setData (h : Heap set (plug path (join s c near e far))) (d' : α) :
    ∃ set', setData set (.node e.1) d' = .ok set' ∧
      Heap set' (plug path (join s c near (e.1, d') far)) ∧
      Kept set set' (addrs (plug path (join s c near e far))) :=
  ⟨_, setData_cell h.cell d', h.store d' c, kept_store set _ Heap.focus_mem⟩

end Join

/-- Painting a subtree that may be empty: the sentinel is black anyway. -/
theorem Heap.paint {set : Coset α} {path : Path (Nat × α)} {t : ATree α}
    (h : Heap set (plug path t)) :
    ∃ set', Set.setColor set (ref t) .black = .ok set' ∧ Heap set' (plug path (t.paint .black)) ∧
      Kept set set' (addrs (plug path t)) := by
  cases t with
  | leaf =>
      refine ⟨set, ?_, h, Kept.refl ..⟩
      have : { set with nilColor := .black } = set := by
        rw [← h.nilBlack]
      simp only [ref, Set.setColor, this]
  | node c l e r => exact Heap.setColor (s := .left) h .black

/-! ### Hanging one node where another hung -/

/-- `if (p != set->nil) p->parent = v` at the root of a subtree. -/
theorem setParentOf_spec {set : Coset α} {t : ATree α} {p : Ref} (v : Ref)
    (h : Holds set.nodes t p) (distinct : (addrs t).Nodup) :
    ∃ set', setParentOf set (ref t) v = .ok set' ∧ Holds set'.nodes t v ∧
      set'.root = set.root ∧ set'.nilColor = set.nilColor ∧ Kept set set' (addrs t) := by
  cases t with
  | leaf => exact ⟨set, rfl, trivial, rfl, rfl, Kept.refl ..⟩
  | node c l e r =>
      have hcell : set.nodes e.1 = some (Set.cell .left p (ref l) (ref r) e.2 c) := h.1
      obtain ⟨hel, her, _, _, _⟩ := join_apart (s := .left) distinct
      have hmem : e.1 ∈ addrs (.node c l e r) := (addrs_join .left c l e r _).mpr (.inr (.inl rfl))
      refine ⟨store set e.1 (Set.cell .left v (ref l) (ref r) e.2 c), ?_, ⟨?_, ?_, ?_⟩, rfl, rfl,
        kept_store set _ hmem⟩
      · rw [setParentOf, if_pos (by simp [ref])]
        exact setParent_cell hcell v
      · exact store_self ..
      · exact h.2.1.frame (fun a ha => store_other set _ (by rintro rfl; exact hel ha))
      · exact h.2.2.frame (fun a ha => store_other set _ (by rintro rfl; exact her ha))

/-- Writing the link above the hole. -/
theorem HoldsPath.refill {set : Coset α} {s : Side} {c : Color} {e : Nat × α} {other : ATree α}
    {rest : Path (Nat × α)} {hole : Ref} (h : HoldsPath set.nodes (⟨s, c, e, other⟩ :: rest) hole)
    (distinct : (pathAddrs (⟨s, c, e, other⟩ :: rest)).Nodup) (y : Ref) :
    HoldsPath (store set e.1 (cell s (parentRef rest) y (ref other) e.2 c)).nodes
      (⟨s, c, e, other⟩ :: rest) y := by
  obtain ⟨_, hother, hrest⟩ := h
  obtain ⟨he, _⟩ := List.nodup_cons.mp ((pathAddrs_cons_perm ..).nodup_iff.mp distinct)
  refine ⟨store_self .., ?_, ?_⟩
  · refine hother.frame (fun a ha => store_other set _ ?_)
    rintro rfl
    exact he (List.mem_append_left _ ha)
  · refine hrest.frame (fun a ha => store_other set _ ?_)
    rintro rfl
    exact he (List.mem_append_right _ (mem_pathAddrs.mpr ha))

/-- The hole of the path gets another tenant. -/
theorem replaceChild_spec {set : Coset α} {path : Path (Nat × α)} {x : Nat} (y : Ref)
    (h : HoldsPath set.nodes path (.node x)) (distinct : (pathAddrs path).Nodup)
    (fresh : x ∉ pathAddrs path) :
    ∃ set', replaceChild set (parentRef path) (.node x) y = .ok set' ∧
      HoldsPath set'.nodes path y ∧ (set'.root = if path = [] then y else set.root) ∧
      set'.nilColor = set.nilColor ∧ Kept set set' (pathAddrs path) := by
  cases path with
  | nil => exact ⟨{ set with root := y }, rfl, trivial, rfl, rfl, ⟨rfl, rfl, rfl, rfl, fun _ _ => rfl⟩⟩
  | cons f rest =>
      obtain ⟨s, c, e, other⟩ := f
      have hcell := h.1
      have hmem : e.1 ∈ pathAddrs (⟨s, c, e, other⟩ :: rest) :=
        (pathAddrs_cons_perm ..).mem_iff.mpr List.mem_cons_self
      have hside : s = .right → Ref.node x ≠ ref other := by
        rintro rfl heq
        cases other with
        | leaf => cases heq
        | node c' l e' r =>
            obtain rfl : x = e'.1 := by simpa [ref] using heq
            exact fresh (by simp [pathAddrs, before, entries])
      refine ⟨store set e.1 (Set.cell s (parentRef rest) y (ref other) e.2 c), ?_,
        h.refill distinct y, rfl, rfl, kept_store set _ hmem⟩
      cases s with
      | left =>
          rw [replaceChild, if_neg (by simp [parentRef])]
          simp only [parentRef, getNear_cell hcell, ok_bind, if_true]
          exact setNear_cell hcell y
      | right =>
          rw [replaceChild, if_neg (by simp [parentRef])]
          have hget : getChild .left set (.node e.1) = .ok (ref other) := getFar_cell hcell
          simp only [parentRef, hget, ok_bind, if_neg (hside rfl)]
          exact setNear_cell hcell y

/-! ### Rotation at the focus -/

theorem rotate_spec {set : Coset α} {path : Path (Nat × α)} {s : Side} {c d : Color}
    {a b f : ATree α} {x y : Nat × α}
    (h : Heap set (plug path (join s c a x (join s d b y f)))) :
    ∃ set', rotate s set (.node x.1) = .ok set' ∧
      Heap set' (plug path (join s d (join s c a x b) y f)) ∧
      Kept set set' (addrs (plug path (join s c a x (join s d b y f)))) := by
  obtain ⟨hpath, ht⟩ := h.at_focus
  obtain ⟨hx, ha, hsub⟩ := (holds_join s).mp ht
  obtain ⟨hy, hb, hf⟩ := (holds_join s).mp hsub
  obtain ⟨hpathNodup, hnodup, hdisj⟩ := h.apart
  obtain ⟨hxa, hxsub, haNodup, hsubNodup, haSub⟩ := join_apart hnodup
  obtain ⟨hyb, hyf, hbNodup, _, hbf⟩ := join_apart hsubNodup
  have memSub := addrs_join s d b y f
  have memAll := addrs_join s c a x (join s d b y f)
  rw [ref_join] at hx hpath
  have hxy : x.1 ≠ y.1 := fun e => hxsub ((memSub _).mpr (.inr (.inl e)))
  have hxb : x.1 ∉ addrs b := fun hm => hxsub ((memSub _).mpr (.inl hm))
  have hxf : x.1 ∉ addrs f := fun hm => hxsub ((memSub _).mpr (.inr (.inr hm)))
  have hya : y.1 ∉ addrs a := fun hm => haSub _ hm ((memSub _).mpr (.inr (.inl rfl)))
  have hxp : x.1 ∉ pathAddrs path := hdisj _ ((memAll _).mpr (.inr (.inl rfl)))
  have inSub : ∀ v ∈ addrs (join s d b y f), v ∉ pathAddrs path :=
    fun v hv => hdisj v ((memAll v).mpr (.inr (.inr hv)))
  have hyp : y.1 ∉ pathAddrs path := inSub _ ((memSub _).mpr (.inr (.inl rfl)))
  -- `x->right = y->left`
  let set₁ := store set x.1 (Set.cell s (parentRef path) (ref a) (ref b) x.2 c)
  have run₁ : setChild s.flip set (.node x.1) (ref b) = .ok set₁ := setFar_cell hx (ref b)
  have k₁ : ∀ v, v ≠ x.1 → set₁.nodes v = set.nodes v := fun v hv => store_other set _ hv
  -- the inner subtree gets `x` as its parent
  have hb₁ : Holds set₁.nodes b (.node y.1) :=
    hb.frame (fun v hv => k₁ v (by rintro rfl; exact hxb hv))
  obtain ⟨set₂, run₂, hb₂, root₂, nil₂, k₂⟩ := setParentOf_spec (.node x.1) hb₁ hbNodup
  have x₂ : set₂.nodes x.1 = some (Set.cell s (parentRef path) (ref a) (ref b) x.2 c) := by
    rw [k₂.outside _ hxb]
    exact store_self ..
  have y₂ : set₂.nodes y.1 = some (Set.cell s (.node x.1) (ref b) (ref f) y.2 d) := by
    rw [k₂.outside _ hyb, k₁ _ (Ne.symm hxy), hy]
  -- `y->parent = x->parent`
  let set₃ := store set₂ y.1 (Set.cell s (parentRef path) (ref b) (ref f) y.2 d)
  have run₃ : setParent set₂ (.node y.1) (parentRef path) = .ok set₃ := setParent_cell y₂ _
  have k₃ : ∀ v, v ≠ y.1 → set₃.nodes v = set₂.nodes v := fun v hv => store_other set₂ _ hv
  -- `y` takes the place of `x`
  have path₃ : HoldsPath set₃.nodes path (.node x.1) := by
    refine hpath.frame (fun v hv => ?_)
    have hvp := mem_pathAddrs.mpr hv
    have hvb : v ∉ addrs b := fun hm => inSub v ((memSub v).mpr (.inl hm)) hvp
    rw [k₃ v (by rintro rfl; exact hyp hvp), k₂.outside v hvb,
      k₁ v (by rintro rfl; exact hxp hvp)]
  obtain ⟨set₄, run₄, path₄, root₄, nil₄, k₄⟩ := replaceChild_spec (.node y.1) path₃ hpathNodup hxp
  have y₄ : set₄.nodes y.1 = some (Set.cell s (parentRef path) (ref b) (ref f) y.2 d) := by
    rw [k₄.outside _ hyp]
    exact store_self ..
  have x₄ : set₄.nodes x.1 = some (Set.cell s (parentRef path) (ref a) (ref b) x.2 c) := by
    rw [k₄.outside _ hxp, k₃ _ hxy, x₂]
  -- `y->left = x` and `x->parent = y`
  let set₅ := store set₄ y.1 (Set.cell s (parentRef path) (.node x.1) (ref f) y.2 d)
  have run₅ : setChild s set₄ (.node y.1) (.node x.1) = .ok set₅ := setNear_cell y₄ _
  have x₅ : set₅.nodes x.1 = some (Set.cell s (parentRef path) (ref a) (ref b) x.2 c) := by
    rw [← x₄]
    exact store_other set₄ _ hxy
  let set₆ := store set₅ x.1 (Set.cell s (.node y.1) (ref a) (ref b) x.2 c)
  have run₆ : setParent set₅ (.node x.1) (.node y.1) = .ok set₆ := setParent_cell x₅ _
  have k₆ : ∀ v, v ≠ x.1 → v ≠ y.1 → set₆.nodes v = set₄.nodes v := fun v hvx hvy =>
    (store_other set₅ _ hvx).trans (store_other set₄ _ hvy)
  have all : ∀ v, v ≠ x.1 → v ≠ y.1 → v ∉ addrs b → v ∉ pathAddrs path →
      set₆.nodes v = set.nodes v := by
    intro v hvx hvy hvb hvp
    rw [k₆ v hvx hvy, k₄.outside v hvp, k₃ v hvy, k₂.outside v hvb, k₁ v hvx]
  have hentries : (plug path (join s c a x (join s d b y f))).entries =
      (plug path (join s d (join s c a x b) y f)).entries :=
    entries_plug_congr path (entries_rotate ..)
  refine ⟨set₆, ?_, ⟨?_, ?_, ?_, ?_⟩, ⟨?_, ?_, ?_, ?_, ?_⟩⟩
  · simp only [rotate, getFar_cell hx, getNear_cell hy, run₁, run₂, getParent_cell x₂, run₃, run₄,
      run₅, run₆, ok_bind]
  · exact nil₄.trans (nil₂.trans h.nilBlack)
  · refine holds_plug.mpr ⟨?_, (holds_join s).mpr ⟨?_, (holds_join s).mpr ⟨?_, ?_, ?_⟩, ?_⟩⟩
    · rw [ref_join]
      refine path₄.frame (fun v hv => ?_)
      have hvp := mem_pathAddrs.mpr hv
      exact k₆ v (by rintro rfl; exact hxp hvp) (by rintro rfl; exact hyp hvp)
    · rw [ref_join]
      exact (store_other set₅ _ (Ne.symm hxy)).trans (store_self ..)
    · exact store_self ..
    · refine ha.frame (fun v hv => ?_)
      exact all v (by rintro rfl; exact hxa hv) (by rintro rfl; exact hya hv)
        (fun hm => haSub v hv ((memSub v).mpr (.inl hm)))
        (hdisj v ((memAll v).mpr (.inl hv)))
    · refine hb₂.frame (fun v hv => ?_)
      have hvp := inSub v ((memSub v).mpr (.inl hv))
      rw [k₆ v (by rintro rfl; exact hxb hv) (by rintro rfl; exact hyb hv), k₄.outside v hvp,
        k₃ v (by rintro rfl; exact hyb hv)]
    · refine hf.frame (fun v hv => ?_)
      exact all v (by rintro rfl; exact hxf hv) (by rintro rfl; exact hyf hv)
        (fun hm => hbf v hm hv) (inSub v ((memSub v).mpr (.inr (.inr hv))))
  · change set₄.root = _
    rw [root₄]
    cases path with
    | nil => simp [plug]
    | cons g rest =>
        rw [if_neg (List.cons_ne_nil g rest)]
        change set₂.root = _
        rw [root₂]
        exact h.root.trans (ref_plug g rest _ _)
  · rw [← addrs_congr hentries]
    exact h.distinct
  · exact k₄.nilParent.trans k₂.nilParent
  · exact k₄.fnComp.trans k₂.fnComp
  · exact k₄.size.trans k₂.size
  · exact k₄.next.trans k₂.next
  · intro v hv
    have hall : v ∉ pathAddrs path ∧ v ∉ addrs (join s c a x (join s d b y f)) := by
      have := mt (addrs_plug_perm path _).mem_iff.mpr hv
      simpa [not_or] using this
    have hvsub : v ∉ addrs (join s d b y f) := fun hm => hall.2 ((memAll v).mpr (.inr (.inr hm)))
    refine all v ?_ ?_ ?_ hall.1
    · rintro rfl
      exact hall.2 ((memAll _).mpr (.inr (.inl rfl)))
    · rintro rfl
      exact hvsub ((memSub _).mpr (.inr (.inl rfl)))
    · exact fun hm => hvsub ((memSub v).mpr (.inl hm))

end Colinlib.Source.Set
