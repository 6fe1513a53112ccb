import Mathlib.Algebra.Group.Nat.Defs
import Mathlib.Data.List.Basic
import Mathlib.Data.Nat.Log

/-!
# Red-black trees with a focus

Trees carry an entry at every node. A path leads from a hole to the root; a tree
with a focus is a path and the subtree plugged into its hole. Left and right are
handled together: `join s` builds a node from its child on side `s` and the
other one. Recolouring and rotation change the subtree at the focus only, and
neither changes the entries in order.
-/
namespace Colinlib.Theory.RedBlack

inductive Color where
  | red | black
  deriving DecidableEq, Repr

inductive Side where
  | left | right
  deriving DecidableEq, Repr

def Side.flip : Side → Side
  | .left => .right
  | .right => .left

@[simp] theorem flip_flip (s : Side) : s.flip.flip = s := by cases s <;> rfl

theorem eq_flip_of_ne {s t : Side} (h : t ≠ s) : t = s.flip := by
  cases s <;> cases t <;> first | rfl | exact absurd rfl h

inductive ColorTree (β : Type) where
  | leaf
  | node (color : Color) (left : ColorTree β) (entry : β) (right : ColorTree β)

variable {β : Type}

namespace ColorTree

def color : ColorTree β → Color
  | leaf => .black
  | node c _ _ _ => c

def paint (c : Color) : ColorTree β → ColorTree β
  | leaf => leaf
  | node _ l e r => node c l e r

/-- The entries in order. -/
def entries : ColorTree β → List β
  | leaf => []
  | node _ l e r => entries l ++ e :: entries r

def height : ColorTree β → Nat
  | leaf => 0
  | node _ l _ r => max (height l) (height r) + 1

def join (s : Side) (c : Color) (near : ColorTree β) (e : β) (far : ColorTree β) : ColorTree β :=
  match s with
  | .left => node c near e far
  | .right => node c far e near

theorem join_flip (s : Side) (c : Color) (near : ColorTree β) (e : β) (far : ColorTree β) :
    join s.flip c far e near = join s c near e far := by cases s <;> rfl

@[simp] theorem color_join (s : Side) (c : Color) (near : ColorTree β) (e : β) (far : ColorTree β) :
    (join s c near e far).color = c := by cases s <;> rfl

@[simp] theorem paint_join (s : Side) (c c' : Color) (near : ColorTree β) (e : β) (far : ColorTree β) :
    (join s c near e far).paint c' = join s c' near e far := by cases s <;> rfl

@[simp] theorem entries_paint (c : Color) (t : ColorTree β) : (t.paint c).entries = t.entries := by
  cases t <;> rfl

theorem paint_self (t : ColorTree β) : t.paint t.color = t := by cases t <;> rfl

/-- Every node on side `s` of its parent can be seen as a join on that side. -/
theorem exists_join (s : Side) {t : ColorTree β} (h : t ≠ leaf) :
    ∃ near e far, t = join s t.color near e far := by
  cases t with
  | leaf => exact absurd rfl h
  | node c l e r =>
      cases s with
      | left => exact ⟨l, e, r, rfl⟩
      | right => exact ⟨r, e, l, rfl⟩

/-- A tree whose entries depend on a child's only through that child's entries. -/
theorem entries_join_congr (s : Side) {c c' : Color} {near near' far far' : ColorTree β} {e : β}
    (hn : near.entries = near'.entries) (hf : far.entries = far'.entries) :
    (join s c near e far).entries = (join s c' near' e far').entries := by
  cases s <;> simp [join, entries, hn, hf]

/-- Rotation at the parent of `far`. -/
theorem entries_rotate (s : Side) (c c' d d' : Color) (a b f : ColorTree β) (x y : β) :
    (join s c a x (join s c' b y f)).entries = (join s d (join s d' a x b) y f).entries := by
  cases s <;> simp [join, entries]

/-- `Balanced t n`: no red node has a red child, and every path to a leaf has `n`
black nodes. -/
inductive Balanced : ColorTree β → Nat → Prop where
  | leaf : Balanced leaf 0
  | red {l e r n} : Balanced l n → Balanced r n → l.color = .black → r.color = .black →
      Balanced (node .red l e r) n
  | black {l e r n} : Balanced l n → Balanced r n → Balanced (node .black l e r) (n + 1)

theorem Balanced.join_red {s : Side} {near far : ColorTree β} {e : β} {n : Nat}
    (hn : Balanced near n) (hf : Balanced far n) (cn : near.color = .black)
    (cf : far.color = .black) : Balanced (join s .red near e far) n := by
  cases s with
  | left => exact .red hn hf cn cf
  | right => exact .red hf hn cf cn

theorem Balanced.join_black {s : Side} {near far : ColorTree β} {e : β} {n : Nat}
    (hn : Balanced near n) (hf : Balanced far n) : Balanced (join s .black near e far) (n + 1) := by
  cases s with
  | left => exact .black hn hf
  | right => exact .black hf hn

theorem Balanced.of_join_red {s : Side} {near far : ColorTree β} {e : β} {n : Nat}
    (h : Balanced (join s .red near e far) n) :
    Balanced near n ∧ Balanced far n ∧ near.color = .black ∧ far.color = .black := by
  cases s with
  | left => cases h with | red hl hr cl cr => exact ⟨hl, hr, cl, cr⟩
  | right => cases h with | red hl hr cl cr => exact ⟨hr, hl, cr, cl⟩

theorem Balanced.of_join_black {s : Side} {near far : ColorTree β} {e : β} {n : Nat}
    (h : Balanced (join s .black near e far) (n + 1)) : Balanced near n ∧ Balanced far n := by
  cases s with
  | left => cases h with | black hl hr => exact ⟨hl, hr⟩
  | right => cases h with | black hl hr => exact ⟨hr, hl⟩

/-- A tree with black nodes on its paths is not empty. -/
theorem Balanced.ne_leaf {t : ColorTree β} {n : Nat} (h : Balanced t (n + 1)) : t ≠ .leaf := by
  rintro rfl
  cases h

theorem Balanced.paint_black_of_red {t : ColorTree β} {n : Nat} (h : Balanced t n)
    (red : t.color = .red) : Balanced (t.paint .black) (n + 1) := by
  cases h with
  | leaf => cases red
  | red hl hr => exact .black hl hr
  | black => cases red

/-- A black node painted red loses one black node on every path. -/
theorem Balanced.paint_red {t : ColorTree β} {s : Side} {near far : ColorTree β} {e : β} {n : Nat}
    (ht : t = join s .black near e far) (h : Balanced t (n + 1)) (cn : near.color = .black)
    (cf : far.color = .black) : Balanced (join s .red near e far) n := by
  subst ht
  exact .join_red h.of_join_black.1 h.of_join_black.2 cn cf

/-- Enough entries for every black node on a path. -/
theorem Balanced.size {t : ColorTree β} {n : Nat} (h : Balanced t n) : 2 ^ n ≤ t.entries.length + 1 := by
  induction h with
  | leaf => simp [entries]
  | red _ _ _ _ ihl ihr =>
      simp only [entries, List.length_append, List.length_cons]
      omega
  | black _ _ ihl ihr =>
      simp only [entries, List.length_append, List.length_cons, Nat.pow_succ]
      omega

theorem Balanced.height {t : ColorTree β} {n : Nat} (h : Balanced t n) :
    t.height ≤ 2 * n + 1 ∧ (t.color = .black → t.height ≤ 2 * n) := by
  induction h with
  | leaf => simp [ColorTree.height]
  | red _ _ cl cr ihl ihr =>
      have hl := ihl.2 cl
      have hr := ihr.2 cr
      simp only [ColorTree.height, ColorTree.color, reduceCtorEq, false_implies, and_true]
      omega
  | black _ _ ihl ihr =>
      have hl := ihl.1
      have hr := ihr.1
      simp only [ColorTree.height]
      omega

/-- A balanced tree with a black root is at most twice as high as a full one. -/
theorem Balanced.height_le_log {t : ColorTree β} {n : Nat} (h : Balanced t n)
    (black : t.color = .black) : t.height ≤ 2 * Nat.log 2 (t.entries.length + 1) := by
  have hn : n ≤ Nat.log 2 (t.entries.length + 1) :=
    Nat.le_log_of_pow_le (by decide) h.size
  have := h.height.2 black
  omega

theorem height_le_entries (t : ColorTree β) : t.height ≤ t.entries.length := by
  induction t with
  | leaf => exact Nat.le_refl 0
  | node c l e r ihl ihr =>
      simp only [height, entries, List.length_append, List.length_cons]
      omega

end ColorTree

open ColorTree

/-- One step up from a hole: the hole is on side `side` of this node. -/
structure Frame (β : Type) where
  side : Side
  color : Color
  entry : β
  other : ColorTree β

/-- The nodes from a hole to the root, nearest first. -/
abbrev Path (β : Type) := List (Frame β)

def Frame.fill (f : Frame β) (t : ColorTree β) : ColorTree β := join f.side f.color t f.entry f.other

def plug : Path β → ColorTree β → ColorTree β
  | [], t => t
  | f :: rest, t => plug rest (f.fill t)

/-- The entries before and after the hole. -/
def before : Path β → List β
  | [] => []
  | f :: rest =>
    match f.side with
    | .left => before rest
    | .right => before rest ++ (f.other.entries ++ [f.entry])

def after : Path β → List β
  | [] => []
  | f :: rest =>
    match f.side with
    | .left => f.entry :: f.other.entries ++ after rest
    | .right => after rest

theorem entries_plug (path : Path β) (t : ColorTree β) :
    (plug path t).entries = before path ++ t.entries ++ after path := by
  induction path generalizing t with
  | nil => simp [plug, before, after]
  | cons f rest ih =>
      rw [plug, ih]
      obtain ⟨side, c, e, other⟩ := f
      cases side <;> simp [before, after, Frame.fill, join, entries]

theorem entries_plug_congr (path : Path β) {t t' : ColorTree β} (h : t.entries = t'.entries) :
    (plug path t).entries = (plug path t').entries := by
  rw [entries_plug, entries_plug, h]

theorem plug_append (path rest : Path β) (t : ColorTree β) :
    plug (path ++ rest) t = plug rest (plug path t) := by
  induction path generalizing t with
  | nil => rfl
  | cons f path ih => exact ih (f.fill t)

theorem before_append (path rest : Path β) :
    before (path ++ rest) = before rest ++ before path := by
  induction path with
  | nil => simp [before]
  | cons f path ih =>
      obtain ⟨side, c, e, other⟩ := f
      cases side <;> simp [before, ih]

theorem after_append (path rest : Path β) :
    after (path ++ rest) = after path ++ after rest := by
  induction path with
  | nil => simp [after]
  | cons f path ih =>
      obtain ⟨side, c, e, other⟩ := f
      cases side <;> simp [after, ih]

theorem length_path_le (path : Path β) (t : ColorTree β) :
    path.length ≤ (plug path t).entries.length := by
  rw [entries_plug]
  simp only [List.length_append]
  have : path.length ≤ (before path).length + (after path).length := by
    induction path with
    | nil => simp
    | cons f rest ih =>
        obtain ⟨side, c, e, other⟩ := f
        cases side <;> simp only [before, after, List.length_append, List.length_cons,
          List.length_nil] <;> omega
  omega

/-- The entries in the order that ends on side `s`. -/
def inOrder (s : Side) (t : ColorTree β) : List β :=
  match s with
  | .left => t.entries.reverse
  | .right => t.entries

/-- The entries past the hole on side `s`, the nearest first. -/
def beyond (s : Side) : Path β → List β
  | [] => []
  | f :: rest =>
    if f.side = s then beyond s rest else f.entry :: (inOrder s f.other ++ beyond s rest)

theorem inOrder_join (s : Side) (c : Color) (near : ColorTree β) (e : β) (far : ColorTree β) :
    inOrder s.flip (join s c near e far) = inOrder s.flip near ++ e :: inOrder s.flip far := by
  cases s <;> simp [inOrder, join, entries, Side.flip]

theorem beyond_eq (s : Side) (path : Path β) :
    beyond s path = match s with
      | .left => (before path).reverse
      | .right => after path := by
  induction path with
  | nil => cases s <;> rfl
  | cons f rest ih =>
      obtain ⟨g, c, e, other⟩ := f
      cases s <;> cases g <;> simp [beyond, before, after, inOrder, ih]

/-- What comes behind a node in the order that ends on side `s`. -/
theorem inOrder_plug (s : Side) (path : Path β) (c : Color) (near far : ColorTree β) (e : β) :
    ∃ xs, inOrder s.flip (plug path (join s c near e far)) =
      xs ++ e :: (inOrder s.flip far ++ beyond s.flip path) := by
  have split : ∀ t : ColorTree β, inOrder s.flip (plug path t) =
      (beyond s path).reverse ++ (inOrder s.flip t ++ beyond s.flip path) := by
    intro t
    cases s <;> simp [inOrder, Side.flip, beyond_eq, entries_plug]
  refine ⟨(beyond s path).reverse ++ inOrder s.flip near, ?_⟩
  rw [split, inOrder_join]
  simp

/-- Every entry is at some focus. -/
theorem exists_focus (s : Side) {t : ColorTree β} {e : β} (h : e ∈ t.entries) :
    ∃ path c near far, t = plug path (join s c near e far) := by
  induction t with
  | leaf => cases h
  | node c l x r ihl ihr =>
      rcases List.mem_append.mp h with hl | h
      · obtain ⟨path, c', near, far, same⟩ := ihl hl
        refine ⟨path ++ [⟨.left, c, x, r⟩], c', near, far, ?_⟩
        rw [plug_append, ← same]
        rfl
      · rcases List.mem_cons.mp h with rfl | hr
        · cases s with
          | left => exact ⟨[], c, l, r, rfl⟩
          | right => exact ⟨[], c, r, l, rfl⟩
        · obtain ⟨path, c', near, far, same⟩ := ihr hr
          refine ⟨path ++ [⟨.right, c, x, l⟩], c', near, far, ?_⟩
          rw [plug_append, ← same]
          rfl

/-- The path accepts a subtree of colour `c` with `n` black nodes on its paths: the
whole is then balanced with a black root. -/
inductive Fits : Path β → Nat → Color → Prop where
  | top {n} : Fits [] n .black
  | red {s e other rest n} : Balanced other n → other.color = .black → Fits rest n .red →
      Fits (⟨s, .red, e, other⟩ :: rest) n .black
  | black {s e other rest n c} : Balanced other n → Fits rest (n + 1) .black →
      Fits (⟨s, .black, e, other⟩ :: rest) n c

/-- Where a red subtree fits, a black one does. -/
theorem Fits.any {path : Path β} {n : Nat} {c : Color} (h : Fits path n c) :
    Fits path n .black := by
  cases h with
  | top => exact .top
  | red ho co hr => exact .red ho co hr
  | black ho hr => exact .black ho hr

theorem Fits.plug {path : Path β} {t : ColorTree β} {n : Nat} {c : Color} (h : Fits path n c)
    (ht : Balanced t n) (hc : t.color = c) :
    (∃ m, Balanced (plug path t) m) ∧ (plug path t).color = .black := by
  induction h generalizing t with
  | top => exact ⟨⟨_, ht⟩, hc⟩
  | red ho co hr ih => exact ih (.join_red ht ho hc co) (color_join ..)
  | black ho hr ih => exact ih (.join_black ht ho) (color_join ..)

/-- A red parent has a black parent of its own. -/
theorem Fits.red_parent {f : Frame β} {rest : Path β} {n : Nat} {c : Color}
    (h : Fits (f :: rest) n c) (red : f.color = .red) :
    Balanced f.other n ∧ f.other.color = .black ∧
      ∃ g up, rest = g :: up ∧ g.color = .black ∧ Balanced g.other n ∧
        Fits up (n + 1) .black := by
  cases h with
  | red ho co hr =>
      cases hr with
      | black hg hup => exact ⟨ho, co, _, _, rfl, rfl, hg, hup⟩
  | black => cases red

theorem Fits.black_parent {f : Frame β} {rest : Path β} {n : Nat} {c : Color}
    (h : Fits (f :: rest) n c) (black : f.color = .black) :
    Balanced f.other n ∧ Fits rest (n + 1) .black := by
  cases h with
  | red => cases black
  | black ho hr => exact ⟨ho, hr⟩

/-- Every subtree of a balanced tree with a black root fits its own place. -/
theorem fits_of_plug {path : Path β} {t : ColorTree β} {m : Nat} (h : Balanced (plug path t) m)
    (black : (plug path t).color = .black) : ∃ n, Balanced t n ∧ Fits path n t.color := by
  induction path generalizing t m with
  | nil =>
      refine ⟨m, h, ?_⟩
      have : t.color = .black := black
      rw [this]
      exact .top
  | cons f rest ih =>
      obtain ⟨n, hfill, hfits⟩ := ih h black
      obtain ⟨s, c, e, other⟩ := f
      cases c with
      | red =>
          obtain ⟨hn, hf, cn, cf⟩ := hfill.of_join_red
          rw [Frame.fill, color_join] at hfits
          refine ⟨n, hn, ?_⟩
          rw [cn]
          exact .red hf cf hfits
      | black =>
          rw [Frame.fill, color_join] at hfits
          cases n with
          | zero =>
              cases s <;> cases hfill
          | succ n =>
              obtain ⟨hn, hf⟩ := hfill.of_join_black
              exact ⟨n, hn, .black hf hfits⟩

/-! ### A red node too many -/

/-- The subtree at the focus is red and balanced; the path fits it but for the
colour of the parent. -/
structure RedFocus (path : Path β) (t : ColorTree β) (n : Nat) : Prop where
  fits : Fits path n .black
  balanced : Balanced t n
  red : t.color = .red

/-- Under a red uncle the violation moves to the grandparent. -/
theorem RedFocus.recolour {s g : Side} {c : Color} {e d : β} {other uncle t : ColorTree β}
    {up : Path β} {n : Nat} (h : RedFocus (⟨s, .red, e, other⟩ :: ⟨g, c, d, uncle⟩ :: up) t n)
    (red : uncle.color = .red) :
    RedFocus up (join g .red (join s .black t e other) d (uncle.paint .black)) (n + 1) := by
  obtain ⟨ho, _, _, _, ⟨⟩, _, hg, hup⟩ := h.fits.red_parent rfl
  refine ⟨hup, .join_red (.join_black h.balanced ho) (hg.paint_black_of_red red) ?_ ?_, ?_⟩
  · exact color_join ..
  · cases uncle with
    | leaf => rfl
    | node => rfl
  · exact color_join ..

/-- The inner red child becomes the outer one. -/
theorem RedFocus.inner {s : Side} {c : Color} {e x d : β} {other a b uncle : ColorTree β}
    {up : Path β} {n : Nat}
    (h : RedFocus (⟨s.flip, .red, e, other⟩ :: ⟨s, c, d, uncle⟩ :: up) (join s .red a x b) n) :
    RedFocus (⟨s, .red, x, b⟩ :: ⟨s, c, d, uncle⟩ :: up) (join s .red other e a) n := by
  obtain ⟨ho, co, _, _, ⟨⟩, hc, hg, hup⟩ := h.fits.red_parent rfl
  obtain ⟨ha, hb, ca, cb⟩ := h.balanced.of_join_red
  cases hc
  exact ⟨.red hb cb (.black hg hup), .join_red ho ha co ca, color_join ..⟩

/-- With a black uncle one rotation at the grandparent ends the repair. -/
theorem RedFocus.rotate {s : Side} {c : Color} {e d : β} {other uncle t : ColorTree β}
    {up : Path β} {n : Nat} (h : RedFocus (⟨s, .red, e, other⟩ :: ⟨s, c, d, uncle⟩ :: up) t n)
    (black : uncle.color = .black) :
    Fits (⟨s, .black, e, join s.flip .red uncle d other⟩ :: up) n .red := by
  obtain ⟨ho, co, _, _, ⟨⟩, _, hg, hup⟩ := h.fits.red_parent rfl
  exact .black (.join_red hg ho black co) hup

/-- The repair is over where the parent is black, or at the root. -/
theorem RedFocus.finish {path : Path β} {t : ColorTree β} {n : Nat} (h : RedFocus path t n)
    (done : ∀ f ∈ path.head?, f.color = .black) :
    ∃ m, Balanced ((plug path t).paint .black) m := by
  cases path with
  | nil => exact ⟨n + 1, h.balanced.paint_black_of_red h.red⟩
  | cons f rest =>
      obtain ⟨s, c, e, other⟩ := f
      obtain rfl : c = .black := done _ rfl
      obtain ⟨ho, hr⟩ := h.fits.black_parent rfl
      have fits : Fits (⟨s, .black, e, other⟩ :: rest) n .red := .black ho hr
      obtain ⟨⟨m, hm⟩, hblack⟩ := fits.plug h.balanced h.red
      refine ⟨m, ?_⟩
      have := paint_self (plug (⟨s, .black, e, other⟩ :: rest) t)
      rw [hblack] at this
      rwa [this]

/-! ### A black node too few -/

/-- The path expects one black node more than the subtree at the focus has. A red
subtree need only be balanced once it is painted black. -/
structure ShortFocus (path : Path β) (t : ColorTree β) (n : Nat) : Prop where
  fits : Fits path (n + 1) .black
  black : t.color = .black → Balanced t n
  red : t.color = .red → Balanced (t.paint .black) (n + 1)

theorem color_paint_of_red {t : ColorTree β} (h : t.color = .red) (c : Color) :
    (t.paint c).color = c := by
  cases t with
  | leaf => cases h
  | node => rfl

/-- Painting a red subtree black, or reaching the root, ends the repair. -/
theorem ShortFocus.finish {path : Path β} {t : ColorTree β} {n : Nat} (h : ShortFocus path t n)
    (done : path = [] ∨ t.color = .red) :
    (∃ m, Balanced (plug path (t.paint .black)) m) ∧
      (plug path (t.paint .black)).color = .black := by
  cases hc : t.color with
  | red => exact h.fits.plug (h.red hc) (color_paint_of_red hc .black)
  | black =>
      obtain rfl : path = [] := done.resolve_right (by rw [hc]; decide)
      have := paint_self t
      rw [hc] at this
      rw [this]
      exact ⟨⟨n, h.black hc⟩, hc⟩

/-- The sibling of a short subtree is a real node. -/
theorem ShortFocus.sibling {f : Frame β} {rest : Path β} {t : ColorTree β} {n : Nat}
    (h : ShortFocus (f :: rest) t n) : Balanced f.other (n + 1) ∧ f.other ≠ .leaf := by
  have : Balanced f.other (n + 1) := by
    cases h.fits with
    | red ho => exact ho
    | black ho => exact ho
  exact ⟨this, this.ne_leaf⟩

/-- A red sibling is rotated above the parent, which turns red; the new sibling is
black. -/
theorem ShortFocus.red_sibling {s : Side} {c : Color} {e y : β} {a b t : ColorTree β} {rest : Path β}
    {n : Nat} (h : ShortFocus (⟨s, c, e, join s .red a y b⟩ :: rest) t n) :
    ShortFocus (⟨s, .red, e, a⟩ :: ⟨s, .black, y, b⟩ :: rest) t n ∧ a.color = .black := by
  cases h.fits with
  | red ho co _ =>
      rw [color_join] at co
      cases co
  | black ho hr =>
      obtain ⟨ha, hb, ca, cb⟩ := ho.of_join_red
      exact ⟨⟨.red ha ca (.black hb hr), h.black, h.red⟩, ca⟩

/-- A black sibling with black children turns red, and the parent is short. -/
theorem ShortFocus.lift {s : Side} {c : Color} {e y : β} {a b t : ColorTree β} {rest : Path β}
    {n : Nat} (h : ShortFocus (⟨s, c, e, join s .black a y b⟩ :: rest) t n)
    (black : t.color = .black) (ca : a.color = .black) (cb : b.color = .black) :
    ∃ k, ShortFocus rest (join s c t e (join s .red a y b)) k := by
  have ht := h.black black
  have hsib := h.sibling.1.paint_red rfl ca cb
  cases h.fits with
  | red ho co hr =>
      refine ⟨n, hr.any, fun hc => ?_, fun _ => ?_⟩
      · rw [color_join] at hc
        cases hc
      · rw [paint_join]
        exact .join_black ht hsib
  | black ho hr =>
      refine ⟨n + 1, hr, fun _ => .join_black ht hsib, fun hc => ?_⟩
      rw [color_join] at hc
      cases hc

/-- A red inner nephew is rotated outside. -/
theorem ShortFocus.inner_nephew {s : Side} {c : Color} {e x y : β} {a a' b t : ColorTree β}
    {rest : Path β} {n : Nat}
    (h : ShortFocus (⟨s, c, e, join s .black (join s .red a x a') y b⟩ :: rest) t n)
    (cb : b.color = .black) :
    ShortFocus (⟨s, c, e, join s .black a x (join s .red a' y b)⟩ :: rest) t n := by
  obtain ⟨hin, hb⟩ := h.sibling.1.of_join_black
  obtain ⟨ha, ha', ca, ca'⟩ := hin.of_join_red
  have new : Balanced (join s .black a x (join s .red a' y b)) (n + 1) :=
    .join_black ha (.join_red ha' hb ca' cb)
  refine ⟨?_, h.black, h.red⟩
  cases h.fits with
  | red ho co hr => exact .red new (color_join ..) hr
  | black ho hr => exact .black new hr

/-- A red outer nephew: one rotation at the parent ends the repair. -/
theorem ShortFocus.outer_nephew {s : Side} {c : Color} {e y : β} {a b t : ColorTree β}
    {rest : Path β} {n : Nat} (h : ShortFocus (⟨s, c, e, join s .black a y b⟩ :: rest) t n)
    (black : t.color = .black) (cb : b.color = .red) :
    (∃ m, Balanced (plug rest (join s c (join s .black t e a) y (b.paint .black))) m) ∧
      (plug rest (join s c (join s .black t e a) y (b.paint .black))).color = .black := by
  have ht := h.black black
  obtain ⟨ha, hb⟩ := h.sibling.1.of_join_black
  have inner : Balanced (join s .black t e a) (n + 1) := .join_black ht ha
  have outer := hb.paint_black_of_red cb
  have co := color_paint_of_red cb .black
  cases h.fits with
  | red _ _ hr => exact hr.plug (.join_red inner outer (color_join ..) co) (color_join ..)
  | black _ hr => exact hr.plug (.join_black inner outer) (color_join ..)

/-! ### Unlinking a node with at most one child -/

/-- The only subtree of a node one of whose children is empty. -/
def OnlyChild (l r child : ColorTree β) : Prop := l = .leaf ∧ child = r ∨ r = .leaf ∧ child = l

theorem OnlyChild.entries {l r child : ColorTree β} (h : OnlyChild l r child) :
    l.entries ++ r.entries = child.entries := by
  rcases h with ⟨rfl, rfl⟩ | ⟨rfl, rfl⟩ <;> simp [ColorTree.entries]

theorem OnlyChild.short {l r child : ColorTree β} {e : β} {path : Path β} {n : Nat}
    (h : OnlyChild l r child) (bal : Balanced (.node .black l e r) n)
    (fits : Fits path n .black) : ∃ k, ShortFocus path child k := by
  cases bal with
  | @black _ _ _ m hl hr =>
      have hchild : Balanced child m := by
        rcases h with ⟨rfl, rfl⟩ | ⟨rfl, rfl⟩
        · exact hr
        · exact hl
      exact ⟨_, fits, fun _ => hchild, hchild.paint_black_of_red⟩

theorem OnlyChild.plug {l r child : ColorTree β} {e : β} {path : Path β} {n : Nat}
    (h : OnlyChild l r child) (bal : Balanced (.node .red l e r) n) (fits : Fits path n .red) :
    (∃ m, Balanced (plug path child) m) ∧ (plug path child).color = .black := by
  cases bal with
  | red hl hr cl cr =>
      rcases h with ⟨rfl, rfl⟩ | ⟨rfl, rfl⟩
      · exact fits.any.plug hr cr
      · exact fits.any.plug hl cl

/-- Balance does not depend on the entries of a path. -/
theorem Fits.setEntry {path rest : Path β} {s : Side} {c k : Color} {e e' : β} {other : ColorTree β}
    {n : Nat} (h : Fits (path ++ ⟨s, c, e, other⟩ :: rest) n k) :
    Fits (path ++ ⟨s, c, e', other⟩ :: rest) n k := by
  induction path generalizing n k with
  | nil =>
      cases h with
      | red ho co hr => exact .red ho co hr
      | black ho hr => exact .black ho hr
  | cons f path ih =>
      cases h with
      | red ho co hr => exact .red ho co (ih hr)
      | black ho hr => exact .black ho (ih hr)

end Colinlib.Theory.RedBlack
