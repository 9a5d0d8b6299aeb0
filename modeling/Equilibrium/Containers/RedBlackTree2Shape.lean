import Equilibrium.Containers.RedBlackTree2
import Equilibrium.Library.RedBlack
import Mathlib.Data.List.Perm.Subperm

/-! The tree in the memory: a pointer and the parent it is reached from against a tree of
addresses, and a context against the links around a hole. -/

namespace Equilibrium.RedBlackTree2

open Library.RedBlack RBTree List
open Function (update update_self update_of_ne update_apply)

variable {T : Type}

namespace Tree

variable (m : Tree T) (d e : Side) (x y p : ℕ) (c : Color)

@[simp] theorem setColor_color : (m.setColor x c).color = update m.color x c := rfl
@[simp] theorem setColor_child : (m.setColor x c).child = m.child := rfl
@[simp] theorem setColor_parent : (m.setColor x c).parent = m.parent := rfl
@[simp] theorem setParent_root : (m.setParent x p).root = m.root := rfl
@[simp] theorem setParent_nil : (m.setParent x p).nil = m.nil := rfl
@[simp] theorem setParent_color : (m.setParent x p).color = m.color := rfl
@[simp] theorem setParent_child : (m.setParent x p).child = m.child := rfl
@[simp] theorem setParent_parent : (m.setParent x p).parent = update m.parent x p := rfl
@[simp] theorem setParent_allocated : (m.setParent x p).allocated = m.allocated := rfl

@[simp] theorem setChild_root : (m.setChild d x p).root = m.root := rfl
@[simp] theorem setChild_nil : (m.setChild d x p).nil = m.nil := rfl
@[simp] theorem setChild_value : (m.setChild d x p).value = m.value := rfl
@[simp] theorem setChild_color : (m.setChild d x p).color = m.color := rfl
@[simp] theorem setChild_parent : (m.setChild d x p).parent = m.parent := rfl
theorem setChild_child :
    (m.setChild d x p).child e y = if e = d ∧ y = x then p else m.child e y := by
  by_cases he : e = d
  · subst he
    by_cases hy : y = x
    · subst hy
      simp [setChild]
    · simp [setChild, hy]
  · simp [setChild, he]

end Tree

variable {m m' : Tree T} {d e : Side} {x y p q : ℕ} {c : Color} {s t : RBTree ℕ}
  {ctx : List (Frame ℕ)}

/-- The pointer `p`, reached from `parent`, leads to the nodes of a tree. -/
def Shape (m : Tree T) : ℕ → ℕ → RBTree ℕ → Prop
  | _, p, .leaf => p = m.nil
  | parent, p, .node c l x r =>
    p = x ∧ x ≠ m.nil ∧ m.parent x = parent ∧ m.color x = c ∧
      Shape m x (m.child .left x) l ∧ Shape m x (m.child .right x) r

@[simp] theorem shape_leaf : Shape m q p .leaf ↔ p = m.nil := Iff.rfl

theorem shape_on : Shape m q p (on d c s x t) ↔
    p = x ∧ x ≠ m.nil ∧ m.parent x = q ∧ m.color x = c ∧
      Shape m x (m.child d x) s ∧ Shape m x (m.child d.other x) t := by
  cases d with
  | left => rfl
  | right =>
    refine and_congr_right fun _ => and_congr_right fun _ => and_congr_right fun _ =>
      and_congr_right fun _ => ?_
    exact and_comm

section

variable (h : Shape m q p t)
include h

theorem Shape.mem_or_nil : p ∈ t.inorder ∨ p = m.nil := by
  cases t with
  | leaf => exact .inr h
  | node c l x r =>
    rw [h.1]
    exact .inl (mem_append_right _ mem_cons_self)

theorem Shape.ne_nil : ∀ z ∈ t.inorder, z ≠ m.nil := by
  induction t generalizing q p with
  | leaf => exact nofun
  | node c l x r ihl ihr =>
    obtain ⟨-, hx, -, -, hl, hr⟩ := h
    intro z hz
    rcases mem_append.mp hz with hz | hz
    · exact ihl hl z hz
    · rcases mem_cons.mp hz with rfl | hz
      · exact hx
      · exact ihr hr z hz

theorem Shape.color (hnil : m.color m.nil = .black) : m.color p = t.rootColor := by
  cases t with
  | leaf =>
    rw [shape_leaf.mp h]
    exact hnil
  | node c l x r =>
    obtain ⟨rfl, -, -, hc, -⟩ := h
    exact hc

theorem Shape.eq_nil : p = m.nil ↔ t = .leaf := by
  cases t with
  | leaf => exact iff_of_true h rfl
  | node c l x r => exact iff_of_false (h.1 ▸ h.2.1) nofun

end

/-- What `m'` holds in the node `x` is what `m` holds. -/
structure SameNode (m m' : Tree T) (x : ℕ) : Prop where
  color : m'.color x = m.color x
  child : ∀ d, m'.child d x = m.child d x
  parent : m'.parent x = m.parent x

theorem Shape.congr (h : Shape m q p t) (hnil : m'.nil = m.nil)
    (hsame : ∀ z ∈ t.inorder, SameNode m m' z) : Shape m' q p t := by
  induction t generalizing q p with
  | leaf => exact (shape_leaf.mp h).trans hnil.symm
  | node c l x r ihl ihr =>
    obtain ⟨rfl, hx, hq, hc, hl, hr⟩ := h
    have hp := hsame p (mem_append_right _ mem_cons_self)
    refine ⟨rfl, hnil ▸ hx, hp.parent.trans hq, hp.color.trans hc, ?_, ?_⟩
    · rw [hp.child]
      exact ihl hl fun z hz => hsame z (mem_append_left _ hz)
    · rw [hp.child]
      exact ihr hr fun z hz => hsame z (mem_append_right _ (mem_cons_of_mem _ hz))

theorem Shape.move (h : Shape m q p t) {q' : ℕ} (hnodup : t.inorder.Nodup) (hnil : m'.nil = m.nil)
    (hfield : ∀ z ∈ t.inorder, m'.color z = m.color z ∧ ∀ d, m'.child d z = m.child d z)
    (hparent : ∀ z ∈ t.inorder, m'.parent z = if z = p then q' else m.parent z) :
    Shape m' q' p t := by
  cases t with
  | leaf => exact (shape_leaf.mp h).trans hnil.symm
  | node c l x r =>
    obtain ⟨rfl, hx, -, hc, hl, hr⟩ := h
    obtain ⟨hpl, hpr, -, -, -⟩ := nodup_inorder_on (d := .left).mp hnodup
    have hmem : p ∈ (node c l p r).inorder := mem_append_right _ mem_cons_self
    have hsame : ∀ z ∈ (node c l p r).inorder, z ≠ p → SameNode m m' z := fun z hz hzp =>
      ⟨(hfield z hz).1, (hfield z hz).2, by rw [hparent z hz, if_neg hzp]⟩
    refine ⟨rfl, hnil ▸ hx, by rw [hparent p hmem, if_pos rfl], (hfield p hmem).1.trans hc, ?_, ?_⟩
    · rw [(hfield p hmem).2]
      exact hl.congr hnil fun z hz =>
        hsame z (mem_append_left _ hz) fun hzp => hpl (hzp ▸ hz)
    · rw [(hfield p hmem).2]
      exact hr.congr hnil fun z hz =>
        hsame z (mem_append_right _ (mem_cons_of_mem _ hz)) fun hzp => hpr (hzp ▸ hz)

/-! Contexts. -/

def hole (m : Tree T) : List (Frame ℕ) → ℕ
  | [] => m.root
  | f :: _ => m.child f.side f.entry

def above (m : Tree T) : List (Frame ℕ) → ℕ
  | [] => m.nil
  | f :: _ => f.entry

def Fits (m : Tree T) : List (Frame ℕ) → Prop
  | [] => True
  | f :: ctx =>
    hole m ctx = f.entry ∧ f.entry ≠ m.nil ∧ m.parent f.entry = above m ctx ∧
      m.color f.entry = f.color ∧ Shape m f.entry (m.child f.side.other f.entry) f.sibling ∧
      Fits m ctx

theorem shape_plug : Shape m m.nil m.root (plug ctx t) ↔
    Fits m ctx ∧ Shape m (above m ctx) (hole m ctx) t := by
  induction ctx generalizing t with
  | nil => exact ⟨fun h => ⟨trivial, h⟩, fun h => h.2⟩
  | cons f ctx ih =>
    rw [plug_cons, ih, Frame.fill, shape_on, Fits, hole, above]
    tauto

theorem Fits.ne_nil (h : Fits m ctx) : ∀ z ∈ contextEntries ctx, z ≠ m.nil := by
  induction ctx with
  | nil => exact nofun
  | cons f ctx ih =>
    obtain ⟨-, hf, -, -, hs, hctx⟩ := h
    intro z hz
    rcases mem_cons.mp hz with rfl | hz
    · exact hf
    · rcases mem_append.mp hz with hz | hz
      · exact hs.ne_nil z hz
      · exact ih hctx z hz

theorem Fits.congr (h : Fits m ctx) (hnil : m'.nil = m.nil) (hroot : m'.root = m.root)
    (hsame : ∀ z ∈ contextEntries ctx, SameNode m m' z) :
    Fits m' ctx ∧ hole m' ctx = hole m ctx ∧ above m' ctx = above m ctx := by
  induction ctx with
  | nil => exact ⟨trivial, hroot, hnil⟩
  | cons f ctx ih =>
    obtain ⟨hhole, hf, hparent, hcolor, hs, hctx⟩ := h
    have hsf := hsame f.entry mem_cons_self
    obtain ⟨hfits, hhole', habove⟩ := ih hctx fun z hz =>
      hsame z (mem_cons_of_mem _ (mem_append_right _ hz))
    refine ⟨⟨hhole'.trans hhole, hnil ▸ hf, ?_, hsf.color.trans hcolor, ?_, hfits⟩,
      hsf.child _, rfl⟩
    · rw [hsf.parent, hparent, habove]
    · rw [hsf.child]
      exact hs.congr hnil fun z hz =>
        hsame z (mem_cons_of_mem _ (mem_append_left _ hz))

def TopLink (ctx : List (Frame ℕ)) (d : Side) (x : ℕ) : Prop :=
  match ctx with
  | [] => False
  | f :: _ => d = f.side ∧ x = f.entry

theorem Fits.refill (h : Fits m ctx) (hnodup : (contextEntries ctx).Nodup) (hnil : m'.nil = m.nil)
    (hroot : ctx ≠ [] → m'.root = m.root)
    (hfield : ∀ z ∈ contextEntries ctx, m'.color z = m.color z ∧ m'.parent z = m.parent z)
    (hchild : ∀ z ∈ contextEntries ctx, ∀ d, ¬ TopLink ctx d z → m'.child d z = m.child d z) :
    Fits m' ctx ∧ above m' ctx = above m ctx := by
  cases ctx with
  | nil => exact ⟨trivial, hnil⟩
  | cons f ctx =>
    obtain ⟨hhole, hf, hparent, hcolor, hs, hctx⟩ := h
    obtain ⟨hnot, -⟩ := nodup_cons.mp hnodup
    have hsame : ∀ z ∈ f.sibling.inorder ++ contextEntries ctx, SameNode m m' z := by
      intro z hz
      have hmem : z ∈ contextEntries (f :: ctx) := mem_cons_of_mem _ hz
      refine ⟨(hfield z hmem).1, fun d => hchild z hmem d ?_, (hfield z hmem).2⟩
      rintro ⟨-, rfl⟩
      exact hnot hz
    have hmem : f.entry ∈ contextEntries (f :: ctx) := mem_cons_self
    obtain ⟨hfits, hhole', habove⟩ := hctx.congr hnil (hroot nofun) fun z hz =>
      hsame z (mem_append_right _ hz)
    refine ⟨⟨hhole'.trans hhole, hnil ▸ hf, ?_, (hfield _ hmem).1.trans hcolor, ?_, hfits⟩, rfl⟩
    · rw [(hfield _ hmem).2, hparent, habove]
    · have hother : ¬ TopLink (f :: ctx) f.side.other f.entry := fun h => Side.other_ne _ h.1
      rw [hchild _ hmem _ hother]
      exact hs.congr hnil fun z hz => hsame z (mem_append_left _ hz)

/-- The memory holds the tree, with a black sentinel. -/
structure Represents (m : Tree T) (t : RBTree ℕ) : Prop where
  shape : Shape m m.nil m.root t
  nodup : t.inorder.Nodup
  nil : m.color m.nil = .black
  bounded : ∀ z ∈ t.inorder, z < m.allocated
  sentinel : m.nil < m.allocated

theorem Represents.split (h : Represents m (plug ctx t)) :
    Fits m ctx ∧ Shape m (above m ctx) (hole m ctx) t :=
  shape_plug.mp h.shape

/-- What a step leaves of the memory outside of the links and colors. -/
structure Keeps (m m' : Tree T) : Prop where
  nil : m'.nil = m.nil
  value : m'.value = m.value
  allocated : m'.allocated = m.allocated

theorem Keeps.refl (m : Tree T) : Keeps m m := ⟨rfl, rfl, rfl⟩

theorem Keeps.trans {m₁ m₂ m₃ : Tree T} (h : Keeps m₁ m₂) (h' : Keeps m₂ m₃) : Keeps m₁ m₃ :=
  ⟨h'.nil.trans h.nil, h'.value.trans h.value, h'.allocated.trans h.allocated⟩

theorem keeps_setColor (m : Tree T) (x : ℕ) (c : Color) : Keeps m (m.setColor x c) :=
  ⟨rfl, rfl, rfl⟩

theorem Represents.setColor (h : Represents m (plug ctx (on d c s x t))) (c' : Color) :
    Represents (m.setColor x c') (plug ctx (on d c' s x t)) := by
  obtain ⟨hfits, hshape⟩ := h.split
  obtain ⟨hx, hne, hparent, -, hs, ht⟩ := shape_on.mp hshape
  obtain ⟨htree, -, hdisjoint⟩ := nodup_inorder_plug.mp h.nodup
  obtain ⟨hxs, hxt, -⟩ := nodup_inorder_on.mp htree
  have hxctx : x ∉ contextEntries ctx := hdisjoint (mem_inorder_on.mpr (.inl rfl))
  have hsame : ∀ z, z ≠ x → SameNode m (m.setColor x c') z := fun z hz =>
    ⟨update_of_ne hz _ _, fun _ => rfl, rfl⟩
  have hperm : (plug ctx (on d c' s x t)).inorder = (plug ctx (on d c s x t)).inorder :=
    inorder_plug_congr ctx (inorder_on_congr rfl rfl)
  obtain ⟨hfits', hhole, habove⟩ := hfits.congr (show (m.setColor x c').nil = m.nil from rfl) rfl
    fun z hz => hsame z (ne_of_mem_of_not_mem hz hxctx)
  refine ⟨shape_plug.mpr ⟨hfits', shape_on.mpr ⟨hhole.trans hx, hne, ?_, ?_, ?_, ?_⟩⟩, ?_, ?_, ?_,
    h.sentinel⟩
  · exact hparent.trans habove.symm
  · exact update_self _ _ _
  · exact hs.congr rfl fun z hz => hsame z (ne_of_mem_of_not_mem hz hxs)
  · exact ht.congr rfl fun z hz => hsame z (ne_of_mem_of_not_mem hz hxt)
  · rw [hperm]
    exact h.nodup
  · exact (update_of_ne (Ne.symm hne) _ _).trans h.nil
  · rw [hperm]
    exact h.bounded

def setHole (m : Tree T) (ctx : List (Frame ℕ)) (p : ℕ) : Tree T :=
  match ctx with
  | [] => m.setRoot p
  | f :: _ => m.setChild f.side f.entry p

section SetHole

variable (m ctx p)

@[simp] theorem setHole_nil : (setHole m ctx p).nil = m.nil := by cases ctx <;> rfl
@[simp] theorem setHole_value : (setHole m ctx p).value = m.value := by cases ctx <;> rfl
@[simp] theorem setHole_color : (setHole m ctx p).color = m.color := by cases ctx <;> rfl
@[simp] theorem setHole_parent : (setHole m ctx p).parent = m.parent := by cases ctx <;> rfl
@[simp] theorem setHole_allocated : (setHole m ctx p).allocated = m.allocated := by
  cases ctx <;> rfl

end SetHole

theorem hole_setHole : hole (setHole m ctx p) ctx = p := by
  cases ctx with
  | nil => rfl
  | cons f ctx => exact (Tree.setChild_child ..).trans (if_pos ⟨rfl, rfl⟩)

theorem setHole_child (h : ¬ TopLink ctx d x) : (setHole m ctx p).child d x = m.child d x := by
  cases ctx with
  | nil => rfl
  | cons f ctx => exact (Tree.setChild_child ..).trans (if_neg h)

theorem setHole_root (h : ctx ≠ []) : (setHole m ctx p).root = m.root := by
  cases ctx with
  | nil => exact absurd rfl h
  | cons f ctx => rfl

/-- The hole's own link is the only one to `x`. -/
structure Linked (m : Tree T) (ctx : List (Frame ℕ)) (x : ℕ) : Prop where
  parent : m.parent x = above m ctx
  hole : hole m ctx = x
  only : ∀ f ∈ ctx.head?, f.entry ≠ m.nil ∧ m.child f.side.other f.entry ≠ x

theorem Represents.linked (h : Represents m (plug ctx (on e c s x t))) : Linked m ctx x := by
  obtain ⟨hfits, hshape⟩ := h.split
  obtain ⟨hx, hne, hparent, -⟩ := shape_on.mp hshape
  refine ⟨hparent, hx, fun f hf => ?_⟩
  cases ctx with
  | nil => exact absurd hf nofun
  | cons g ctx =>
    cases hf
    obtain ⟨-, hg, -, -, hsibling, -⟩ := hfits
    obtain ⟨-, -, hdisjoint⟩ := nodup_inorder_plug.mp h.nodup
    refine ⟨hg, fun heq => ?_⟩
    rcases hsibling.mem_or_nil with hmem | hnil
    · exact hdisjoint (mem_inorder_on.mpr (.inl rfl))
        (mem_cons_of_mem _ (mem_append_left _ (heq ▸ hmem)))
    · exact hne (heq.symm.trans hnil)

theorem head_mem_contextEntries {f : Frame ℕ} (hf : f ∈ ctx.head?) :
    f.entry ∈ contextEntries ctx := by
  cases ctx with
  | nil => exact absurd hf nofun
  | cons g ctx =>
    cases hf
    exact mem_cons_self

theorem Linked.congr (h : Linked m ctx x) (hnil : m'.nil = m.nil) (hroot : m'.root = m.root)
    (hparent : m'.parent x = m.parent x)
    (hchild : ∀ f ∈ ctx.head?, ∀ e, m'.child e f.entry = m.child e f.entry) : Linked m' ctx x := by
  have habove : RedBlackTree2.above m' ctx = RedBlackTree2.above m ctx := by
    cases ctx with
    | nil => exact hnil
    | cons f ctx => rfl
  refine ⟨(hparent.trans h.parent).trans habove.symm, Eq.trans ?_ h.hole, fun f hf => ?_⟩
  · cases ctx with
    | nil => exact hroot
    | cons f ctx => exact hchild f rfl f.side
  · rw [hchild f hf, hnil]
    exact h.only f hf

theorem relink_eq (h : Linked m ctx x) (d : Side) (v : ℕ) : m.relink d x v = setHole m ctx v := by
  cases ctx with
  | nil =>
    have hparent : m.parent x = m.nil := h.parent
    rw [Tree.relink, if_pos hparent]
    rfl
  | cons f ctx =>
    have hparent : m.parent x = f.entry := h.parent
    have hlink : m.child f.side f.entry = x := h.hole
    obtain ⟨hne, honly⟩ := h.only f rfl
    rw [Tree.relink, hparent, if_neg hne, setHole]
    rcases d.eq_or_eq_other f.side with hd | hd
    · rw [if_pos (by rw [← hd, hlink]), hd]
    · have hother : f.side.other = d := by rw [hd, Side.other_other]
      rw [if_neg (by rw [← hother]; exact Ne.symm honly), ← hd]

theorem TopLink.mem (h : TopLink ctx d x) : x ∈ contextEntries ctx := by
  cases ctx with
  | nil => exact h.elim
  | cons f ctx =>
    obtain ⟨-, rfl⟩ := h
    exact mem_cons_self

section Rotate

variable {cx cy : Color} {a b u : RBTree ℕ}

theorem keeps_relink (m : Tree T) (d : Side) (x v : ℕ) :
    Keeps m (m.relink d x v) ∧ (m.relink d x v).color = m.color := by
  rw [Tree.relink]
  split_ifs <;> exact ⟨⟨rfl, rfl, rfl⟩, rfl⟩

/-- The memory when a rotation comes to the link to `x`. -/
def rotated (m : Tree T) (d : Side) (x : ℕ) : Tree T :=
  let y := m.child d.other x
  let b := m.child d y
  let m := m.setChild d.other x b
  let m := if b ≠ m.nil then m.setParent b x else m
  m.setParent y (m.parent x)

theorem rotate_eq_rotated (m : Tree T) (d : Side) (x : ℕ) : m.rotate d x =
    (((rotated m d x).relink d x (m.child d.other x)).setChild d (m.child d.other x) x).setParent x
      (m.child d.other x) := by
  have hchild : (m.setChild d.other x (m.child d (m.child d.other x))).child d
      (m.child d.other x) = m.child d (m.child d.other x) := by
    rw [Tree.setChild_child, if_neg]
    exact fun h => Side.other_ne d h.1.symm
  simp only [Tree.rotate, rotated, hchild]

theorem rotated_child (m : Tree T) (d : Side) (x : ℕ) :
    (rotated m d x).child = (m.setChild d.other x (m.child d (m.child d.other x))).child := by
  simp only [rotated]
  split <;> rfl

theorem rotated_parent (m : Tree T) (d : Side) (x z : ℕ)
    (hb : x ≠ m.child d (m.child d.other x)) : (rotated m d x).parent z =
      if z = m.child d.other x then m.parent x
      else if z = m.child d (m.child d.other x) ∧ z ≠ m.nil then x else m.parent z := by
  by_cases hnil : m.child d (m.child d.other x) = m.nil
  · simp only [rotated, Tree.setChild_nil, hnil, ne_eq, not_true_eq_false, if_false,
      Tree.setParent_parent, Tree.setChild_parent, update_apply]
    refine if_congr Iff.rfl rfl (if_neg ?_).symm
    rintro ⟨rfl, hz⟩
    exact hz rfl
  · simp only [rotated, Tree.setChild_nil, ne_eq, hnil, not_false_eq_true, if_true,
      Tree.setParent_parent, Tree.setChild_parent, update_apply, if_neg hb]
    refine if_congr Iff.rfl rfl (if_congr ?_ rfl rfl)
    exact ⟨fun hz => ⟨hz, hz ▸ hnil⟩, And.left⟩

theorem keeps_rotated (m : Tree T) (d : Side) (x : ℕ) :
    Keeps m (rotated m d x) ∧ (rotated m d x).color = m.color ∧ (rotated m d x).root = m.root := by
  simp only [rotated]
  split <;> exact ⟨⟨rfl, rfl, rfl⟩, rfl, rfl⟩

theorem keeps_rotate (m : Tree T) (d : Side) (x : ℕ) :
    Keeps m (m.rotate d x) ∧ (m.rotate d x).color = m.color := by
  obtain ⟨hkeeps, hcolor, -⟩ := keeps_rotated m d x
  obtain ⟨hkeeps', hcolor'⟩ := keeps_relink (rotated m d x) d x (m.child d.other x)
  rw [rotate_eq_rotated]
  exact ⟨(hkeeps.trans hkeeps').trans ⟨rfl, rfl, rfl⟩, hcolor'.trans hcolor⟩

theorem Linked.rotated (h : Linked m ctx x) (hx : x ∉ contextEntries ctx) (d : Side)
    (hxy : x ≠ m.child d.other x) (hxb : x ≠ m.child d (m.child d.other x)) :
    Linked (rotated m d x) ctx x := by
  obtain ⟨⟨hnil, -, -⟩, -, hroot⟩ := keeps_rotated m d x
  refine h.congr hnil hroot ?_ fun f hf e => ?_
  · have hnot : ¬ (x = m.child d (m.child d.other x) ∧ x ≠ m.nil) := fun h => hxb h.1
    rw [rotated_parent m d x x hxb, if_neg hxy, if_neg hnot]
  · rw [rotated_child, Tree.setChild_child, if_neg]
    rintro ⟨-, rfl⟩
    exact hx (head_mem_contextEntries hf)

section

variable (h : Represents m (plug ctx (on d cx a x (on d cy b y u))))
include h

theorem Represents.apart :
    m.child d.other x = y ∧ x ≠ y ∧ x ≠ m.child d y ∧ x ∉ contextEntries ctx := by
  obtain ⟨-, hshape⟩ := h.split
  obtain ⟨-, hxnil, -, -, -, hright⟩ := shape_on.mp hshape
  obtain ⟨hy, -, -, -, hb, -⟩ := shape_on.mp hright
  obtain ⟨htree, -, hdisjoint⟩ := nodup_inorder_plug.mp h.nodup
  obtain ⟨-, hxright, -⟩ := nodup_inorder_on.mp htree
  refine ⟨hy, fun heq => hxright (mem_inorder_on.mpr (.inl heq)), fun heq => ?_,
    hdisjoint (mem_inorder_on.mpr (.inl rfl))⟩
  rcases hb.mem_or_nil with hmem | hnil
  · exact hxright (mem_inorder_on.mpr (.inr (.inl (heq ▸ hmem))))
  · exact hxnil (heq.trans hnil)

theorem Represents.rotate_eq :
    m.rotate d x = ((setHole (rotated m d x) ctx y).setChild d y x).setParent x y := by
  obtain ⟨hy, hxy, hxb, hxctx⟩ := h.apart
  have heq := rotate_eq_rotated m d x
  rwa [relink_eq (h.linked.rotated hxctx d (by rw [hy]; exact hxy) (by rw [hy]; exact hxb)), hy]
    at heq

theorem Represents.rotate_child {z : ℕ} (hnear : ¬ (e = d ∧ z = y)) (htop : ¬ TopLink ctx e z)
    (hfar : ¬ (e = d.other ∧ z = x)) : (m.rotate d x).child e z = m.child e z := by
  rw [h.rotate_eq, Tree.setParent_child, Tree.setChild_child, if_neg hnear, setHole_child htop,
    rotated_child, Tree.setChild_child, if_neg hfar]

theorem Represents.rotate_parent (z : ℕ) : (m.rotate d x).parent z =
      if z = x then y else if z = y then above m ctx
      else if z = m.child d y ∧ z ≠ m.nil then x else m.parent z := by
  obtain ⟨hy, -, hxb, -⟩ := h.apart
  have hxparent : m.parent x = above m ctx := (shape_on.mp h.split.2).2.2.1
  rw [h.rotate_eq, Tree.setParent_parent, update_apply, Tree.setChild_parent,
    setHole_parent, rotated_parent m d x z (by rw [hy]; exact hxb), hy, hxparent]

theorem Represents.rotate_parent_nil : (m.rotate d x).parent m.nil = m.parent m.nil := by
  obtain ⟨-, hxnil, -, -, -, hright⟩ := shape_on.mp h.split.2
  have hynil := (shape_on.mp hright).2.1
  have hnot : ¬ (m.nil = m.child d y ∧ m.nil ≠ m.nil) := fun hz => hz.2 rfl
  rw [h.rotate_parent, if_neg (Ne.symm hxnil), if_neg (Ne.symm hynil), if_neg hnot]

theorem Represents.rotate : Represents (m.rotate d x) (plug ctx (on d cy (on d cx a x b) y u)) := by
  obtain ⟨hfits, hshape⟩ := h.split
  obtain ⟨hx, hxnil, hxparent, hxcolor, ha, hright⟩ := shape_on.mp hshape
  obtain ⟨-, hynil, hyparent, hycolor, hb, hu⟩ := shape_on.mp hright
  obtain ⟨htree, hctx, hdisjoint⟩ := nodup_inorder_plug.mp h.nodup
  obtain ⟨hxa, hxright, hanodup, hrightnodup, hapart⟩ := nodup_inorder_on.mp htree
  obtain ⟨hyb, hyu, hbnodup, hunodup, hbu⟩ := nodup_inorder_on.mp hrightnodup
  obtain ⟨⟨hnil, hvalue, hallocated⟩, hcolor⟩ := keeps_rotate m d x
  obtain ⟨hy, hxy, hxb, hxctx⟩ := h.apart
  have heq := h.rotate_eq
  have hparent := h.rotate_parent
  have hchild : ∀ e z, ¬ (e = d ∧ z = y) → ¬ TopLink ctx e z → ¬ (e = d.other ∧ z = x) →
      (m.rotate d x).child e z = m.child e z := fun e z => h.rotate_child
  -- where the nodes are not
  have hyright : y ∈ (on d cy b y u).inorder := mem_inorder_on.mpr (.inl rfl)
  have hbright : ∀ {z}, z ∈ b.inorder → z ∈ (on d cy b y u).inorder := fun hz =>
    mem_inorder_on.mpr (.inr (.inl hz))
  have huright : ∀ {z}, z ∈ u.inorder → z ∈ (on d cy b y u).inorder := fun hz =>
    mem_inorder_on.mpr (.inr (.inr hz))
  have hroot : ∀ {z}, z ∈ (on d cy b y u).inorder → z ∉ contextEntries ctx := fun hz =>
    hdisjoint (mem_inorder_on.mpr (.inr (.inr hz)))
  have hbmem : ∀ {z}, z = m.child d y → z ≠ m.nil → z ∈ b.inorder := fun hz hne => by
    subst hz
    exact hb.mem_or_nil.resolve_right hne
  have hsame : ∀ z, z ≠ x → z ≠ y → z ∉ b.inorder → z ≠ m.nil → z ∉ contextEntries ctx →
      SameNode m (m.rotate d x) z := by
    intro z hzx hzy hzb hznil hzctx
    have hzparent : ¬ (z = m.child d y ∧ z ≠ m.nil) := fun hz => hzb (hbmem hz.1 hz.2)
    refine ⟨congrFun hcolor z, fun e => hchild e z (fun hz => hzy hz.2) (fun hz => hzctx hz.mem)
      (fun hz => hzx hz.2), ?_⟩
    rw [hparent, if_neg hzx, if_neg hzy, if_neg hzparent]
  have hfits' : Fits (m.rotate d x) ctx ∧ above (m.rotate d x) ctx = above m ctx := by
    refine hfits.refill hctx hnil (fun hne => ?_) (fun z hz => ⟨congrFun hcolor z, ?_⟩)
      fun z hz e htop => hchild e z (fun heq => hroot hyright (heq.2 ▸ hz)) htop
        (fun heq => hxctx (heq.2 ▸ hz))
    · rw [heq]
      exact (setHole_root hne).trans (keeps_rotated m d x).2.2
    · have hzx : z ≠ x := ne_of_mem_of_not_mem hz hxctx
      have hzy : z ≠ y := ne_of_mem_of_not_mem hz (hroot hyright)
      have hzb : ¬ (z = m.child d y ∧ z ≠ m.nil) := fun hzb =>
        hroot (hbright (hbmem hzb.1 hzb.2)) hz
      rw [hparent, if_neg hzx, if_neg hzy, if_neg hzb]
  have hhole : hole (m.rotate d x) ctx = y := by
    rw [heq]
    cases ctx with
    | nil => rfl
    | cons f ctx =>
      have hf : ¬ (f.side = d ∧ f.entry = y) := fun hf =>
        hroot hyright (hf.2 ▸ mem_cons_self)
      refine (Tree.setChild_child ..).trans ((if_neg hf).trans ?_)
      exact @hole_setHole T (rotated m d x) y (f :: ctx)
  have hperm : (plug ctx (on d cy (on d cx a x b) y u)).inorder =
      (plug ctx (on d cx a x (on d cy b y u))).inorder :=
    inorder_plug_congr ctx (inorder_rotate d cx cy cy cx a b u x y).symm
  refine ⟨shape_plug.mpr ⟨hfits'.1, shape_on.mpr ⟨hhole, hnil ▸ hynil, ?_, ?_, ?_, ?_⟩⟩, ?_, ?_, ?_,
    ?_⟩
  · rw [hparent, if_neg (Ne.symm hxy), if_pos rfl, hfits'.2]
  · rw [hcolor]
    exact hycolor
  · have hdown : (m.rotate d x).child d y = x := by
      rw [heq, Tree.setParent_child, Tree.setChild_child, if_pos ⟨rfl, rfl⟩]
    rw [hdown]
    refine shape_on.mpr ⟨rfl, hnil ▸ hxnil, by rw [hparent, if_pos rfl], ?_, ?_, ?_⟩
    · rw [hcolor]
      exact hxcolor
    · rw [hchild d x (fun hz => hxy hz.2) (fun hz => hxctx hz.mem)
        (fun hz => Side.other_ne d hz.1.symm)]
      exact ha.congr hnil fun z hz => hsame z (ne_of_mem_of_not_mem hz hxa)
        (fun heq => hapart hz (heq ▸ hyright)) (fun hzb => hapart hz (hbright hzb))
        (ha.ne_nil z hz) (hdisjoint (mem_inorder_on.mpr (.inr (.inl hz))))
    · have hinner : (m.rotate d x).child d.other x = m.child d y := by
        rw [heq, Tree.setParent_child, Tree.setChild_child, if_neg (fun hz => Side.other_ne d hz.1),
          setHole_child (fun hz => hxctx hz.mem), rotated_child, Tree.setChild_child,
          if_pos ⟨rfl, rfl⟩, hy]
      have hbx : ∀ z ∈ b.inorder, z ≠ x := fun z hz heq => hxright (hbright (heq ▸ hz))
      have hby : ∀ z ∈ b.inorder, z ≠ y := fun z hz => ne_of_mem_of_not_mem hz hyb
      rw [hinner]
      refine hb.move hbnodup hnil (fun z hz => ⟨congrFun hcolor z, fun e => ?_⟩) fun z hz => ?_
      · exact hchild e z (fun heq => hby z hz heq.2) (fun htop => hroot (hbright hz) htop.mem)
          (fun heq => hbx z hz heq.2)
      · rw [hparent, if_neg (hbx z hz), if_neg (hby z hz)]
        exact if_congr ⟨And.left, fun heq => ⟨heq, hb.ne_nil z hz⟩⟩ rfl rfl
  · rw [hchild d.other y (fun hz => Side.other_ne d hz.1) (fun hz => hroot hyright hz.mem)
      (fun hz => hxy hz.2.symm)]
    exact hu.congr hnil fun z hz => hsame z (fun heq => hxright (huright (heq ▸ hz)))
      (ne_of_mem_of_not_mem hz hyu) (fun hzb => hbu hzb hz) (hu.ne_nil z hz)
      (hroot (huright hz))
  · rw [hperm]
    exact h.nodup
  · rw [hnil, hcolor]
    exact h.nil
  · rw [hperm, hallocated]
    exact h.bounded
  · rw [hnil, hallocated]
    exact h.sentinel

end

end Rotate

/-! What is read at a place. -/

theorem Represents.length_le (h : Represents m t) : t.inorder.length ≤ m.allocated := by
  have hsub : t.inorder ⊆ range m.allocated := fun z hz => mem_range.mpr (h.bounded z hz)
  have := (subperm_of_subset h.nodup hsub).length_le
  rwa [length_range] at this

theorem length_le_contextEntries (ctx : List (Frame ℕ)) :
    ctx.length ≤ (contextEntries ctx).length := by
  induction ctx with
  | nil => exact Nat.le_refl _
  | cons f ctx ih =>
    rw [contextEntries, length_cons, length_cons, length_append]
    omega

theorem Represents.depth_le (h : Represents m (plug ctx t)) :
    t.inorder.length + ctx.length ≤ m.allocated := by
  have hlen := h.length_le
  rw [(inorder_plug_perm ctx t).length_eq, length_append] at hlen
  have := length_le_contextEntries ctx
  omega

theorem plug_swap (d : Side) (c : Color) (x : ℕ) (s t : RBTree ℕ) (ctx : List (Frame ℕ)) :
    plug (⟨d.other, c, x, t⟩ :: ctx) s = plug (⟨d, c, x, s⟩ :: ctx) t := by
  rw [plug_cons, plug_cons, Frame.fill, Frame.fill, on_other]

theorem Represents.root_blacken (h : Represents m t) :
    Represents (m.setColor m.root .black) t.blacken := by
  cases t with
  | leaf =>
    have hroot : m.root = m.nil := h.shape
    exact ⟨hroot, h.nodup, by rw [hroot]; exact update_self _ _ _, h.bounded, h.sentinel⟩
  | node c l x r =>
    have hroot : m.root = x := h.shape.1
    have h' : Represents m (plug [] (on .left c l x r)) := h
    rw [hroot]
    exact h'.setColor .black

theorem Represents.side {f : Frame ℕ} (h : Represents m (plug (f :: ctx) t))
    (hne : t ≠ .leaf ∨ f.sibling ≠ .leaf) (d : Side) :
    hole m (f :: ctx) = m.child d f.entry ↔ f.side = d := by
  constructor
  · intro heq
    by_contra hside
    have hd : d = f.side.other := (f.side.eq_or_eq_other d).resolve_left (Ne.symm hside)
    obtain ⟨⟨-, -, -, -, hsibling, -⟩, hshape⟩ := h.split
    rw [← hd, ← heq] at hsibling
    obtain ⟨-, -, hdisjoint⟩ := nodup_inorder_plug.mp h.nodup
    have hnil : hole m (f :: ctx) = m.nil := by
      rcases hshape.mem_or_nil with hmem | hnil
      · rcases hsibling.mem_or_nil with hmem' | hnil
        · exact absurd (mem_cons_of_mem _ (mem_append_left _ hmem')) (hdisjoint hmem)
        · exact hnil
      · exact hnil
    exact hne.elim (fun hne => hne (hshape.eq_nil.mp hnil)) fun hne =>
      hne (hsibling.eq_nil.mp hnil)
  · rintro rfl
    rfl

end Equilibrium.RedBlackTree2
