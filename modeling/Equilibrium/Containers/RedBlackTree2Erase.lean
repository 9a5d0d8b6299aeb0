import Equilibrium.Containers.RedBlackTree2Walk

/-! Erasure: the node is taken out, and the repair of the memory follows the repair of
the tree. The sentinel's parent says where the hole is when the hole is empty. -/

namespace Equilibrium.RedBlackTree2

open Library.RedBlack RBTree List
open Tree (fixDeleteLoop setChild_child setColor_child setColor_parent setParent_child
  setParent_parent)
open Function (update_self update_of_ne update_apply)

variable {T : Type} {m m' : Tree T} {d e : Side} {x p w y z : ℕ} {c : Color}
  {a b s t t' u : RBTree ℕ} {ctx : List (Frame ℕ)}

def address (m : Tree T) : RBTree ℕ → ℕ
  | .leaf => m.nil
  | .node _ _ x _ => x

@[simp] theorem address_on : address m (on d c s x t) = x := by cases d <;> rfl

theorem on_ne_leaf : on d c s x t ≠ .leaf := by cases d <;> exact nofun

theorem Shape.eq_address {q : ℕ} (h : Shape m q p t) : p = address m t := by
  cases t with
  | leaf => exact h
  | node c l x r => exact h.1

theorem Represents.hole_eq (h : Represents m (plug ctx t)) : hole m ctx = address m t :=
  h.split.2.eq_address

/-- The tree in the hole may be empty; the parent of its pointer is stored all the same. -/
structure Lacking (m : Tree T) (ctx : List (Frame ℕ)) (t : RBTree ℕ) : Prop
    extends Represents m (plug ctx t) where
  above : m.parent (address m t) = above m ctx

theorem Represents.lacking (h : Represents m (plug ctx t))
    (hnil : t = .leaf → m.parent m.nil = above m ctx) : Lacking m ctx t := by
  refine ⟨h, ?_⟩
  cases t with
  | leaf => exact hnil rfl
  | node c l x r => exact (show Represents m (plug ctx (on .left c l x r)) from h).node.2.2.1

theorem fixDelete_outer
    (h : Represents m (plug (⟨d, c, p, on d .black u w s⟩ :: ctx) t)) (hs : s.rootColor = .red) :
    Represents
      (((((m.setColor w c).setColor p .black).setColor (m.child d.other w) .black)).rotate d p)
      (plug ctx (on d c (on d .black t p u) w s.blacken)) := by
  obtain ⟨a, y, b, rfl⟩ := exists_on_of_red d hs
  have h₀ : Represents m
      (plug (⟨d.other, c, p, t⟩ :: ctx) (on d .black u w (on d .red a y b))) := by
    rw [plug_swap]
    exact h
  have hy : m.child d.other w = y := (shape_on.mp h₀.node.2.2.2.2.2).1
  have h₁ := h₀.setColor c
  rw [plug_swap] at h₁
  have h₂ : Represents _ (plug ctx (on d .black t p (on d c u w (on d .red a y b)))) :=
    h₁.setColor .black
  have h₃ : Represents ((m.setColor w c).setColor p .black)
      (plug (⟨d.other, c, w, u⟩ :: ⟨d.other, .black, p, t⟩ :: ctx) (on d .red a y b)) := by
    rw [plug_swap, plug_cons, plug_swap]
    exact h₂
  have h₄ := h₃.setColor .black
  rw [plug_swap, plug_cons, Frame.fill, plug_swap] at h₄
  rw [hy, blacken_on]
  exact h₄.rotate

variable {f : Frame ℕ}

theorem Lacking.next {f' : Frame ℕ} {ctx' : List (Frame ℕ)} (h : Lacking m (f :: ctx) t)
    (h' : Represents m' (plug (f' :: ctx') t)) (hnil : m'.nil = m.nil)
    (hparent : m'.parent m.nil = m.parent m.nil) (hentry : f'.entry = f.entry) :
    Lacking m' (f' :: ctx') t ∧ address m' t = address m t := by
  refine ⟨h'.lacking fun hleaf => ?_, by cases t <;> [exact hnil; rfl]⟩
  have habove := h.above
  subst hleaf
  rw [hnil, hparent]
  exact habove.trans hentry.symm

section Body

variable (h : Lacking m (⟨d, c, p, on d .black u w s⟩ :: ctx) t)

include h

theorem sibling_reads : m.parent (address m t) = p ∧ m.color p = c ∧ m.child d.other p = w ∧
    m.color (m.child d w) = u.rootColor ∧ m.color (m.child d.other w) = s.rootColor := by
  obtain ⟨-, -, -, hcolor, -, hsibling⟩ := h.frame
  obtain ⟨hw, -, -, -, hu, hs⟩ := shape_on.mp hsibling
  exact ⟨h.above, hcolor, hw, hu.color h.nil, hs.color h.nil⟩

theorem fixDeleteBlack_children (hu : u.rootColor = .black) (hs : s.rootColor = .black) :
    m.fixDeleteBlack d (address m t) w = (m.setColor w .red, p) ∧
      Represents (m.setColor w .red) (plug ctx (on d c t p (on d .red u w s))) := by
  obtain ⟨hx, -, -, hucolor, hscolor⟩ := sibling_reads h
  have h₀ : Represents m (plug (⟨d.other, c, p, t⟩ :: ctx) (on d .black u w s)) := by
    rw [plug_swap]
    exact h.toRepresents
  have h₁ := h₀.setColor .red
  rw [plug_swap] at h₁
  refine ⟨?_, h₁⟩
  rw [Tree.fixDeleteBlack, if_pos ⟨hucolor.trans hu, hscolor.trans hs⟩, hx]

theorem fixDelete_tail (hs : s.rootColor = .red) :
    ∃ m', (((((m.setColor w (m.color (m.parent (address m t)))).setColor
        ((m.setColor w (m.color (m.parent (address m t)))).parent (address m t)) .black).setColor
          (m.child d.other w) .black)).rotate d (m.parent (address m t))) = m' ∧ Keeps m m' ∧
      Represents m' (plug ctx (on d c (on d .black t p u) w s.blacken)) := by
  obtain ⟨hx, hcolor, -⟩ := sibling_reads h
  refine ⟨_, rfl, ((keeps_setColor _ _ _).trans ((keeps_setColor _ _ _).trans
    (keeps_setColor _ _ _))).trans (keeps_rotate _ _ _).1, ?_⟩
  rw [setColor_parent, hx, hcolor]
  exact fixDelete_outer h.toRepresents hs

theorem fixDeleteBlack_outer (hs : s.rootColor = .red) :
    ∃ m', m.fixDeleteBlack d (address m t) w = (m', m'.root) ∧ Keeps m m' ∧
      Represents m' (plug ctx (on d c (on d .black t p u) w s.blacken)) := by
  obtain ⟨-, -, -, -, hscolor⟩ := sibling_reads h
  have hred : m.color (m.child d.other w) = .red := hscolor.trans hs
  obtain ⟨m', hm', hkeeps, hrep⟩ := fixDelete_tail h hs
  refine ⟨m', ?_, hkeeps, hrep⟩
  rw [← hm']
  simp only [Tree.fixDeleteBlack, Tree.fixDeleteOuter, hred, reduceCtorEq, and_false, if_false,
    setColor_parent, setColor_child]

end Body

section

variable (h : Lacking m (⟨d, c, p, on d .black (on d .red a y b) w s⟩ :: ctx) t)
include h

/-- The outer child of the sibling is black and the inner one red: the rotation makes the inner
one the sibling. -/
theorem fixDeleteOuter_inner (hs : s.rootColor = .black) :
    ∃ m', m.fixDeleteOuter d (address m t) w = (m', y) ∧ Keeps m m' ∧
      Lacking m' (⟨d, c, p, on d .black a y (on d .red b w s)⟩ :: ctx) t ∧
      address m' t = address m t := by
  obtain ⟨-, -, hw, -, hscolor⟩ := sibling_reads h
  have h₀ : Represents m
      (plug (⟨d, .black, w, s⟩ :: ⟨d.other, c, p, t⟩ :: ctx) (on d .red a y b)) := by
    rw [plug_cons, plug_swap]
    exact h.toRepresents
  have hy : m.child d w = y := h₀.node.1
  have h₁ := h₀.setColor .black
  have h₂ := (show Represents _ (plug (⟨d.other, c, p, t⟩ :: ctx)
    (on d .black (on d .black a y b) w s)) from h₁).setColor .red
  rw [← on_other d .red, ← on_other d .black] at h₂
  have h₃ := h₂.rotate
  have hnil := h₂.rotate_parent_nil
  rw [on_other, on_other, plug_swap] at h₃
  have hkeeps := ((keeps_setColor m y .black).trans (keeps_setColor _ w .red)).trans
    (keeps_rotate _ d.other w).1
  obtain ⟨hlacking, haddress⟩ := h.next h₃ hkeeps.nil hnil rfl
  obtain ⟨hx, -, hsibling, -⟩ := sibling_reads hlacking
  rw [haddress] at hx
  refine ⟨_, ?_, hkeeps, hlacking, haddress⟩
  rw [Tree.fixDeleteOuter, if_pos (hscolor.trans hs), hy]
  dsimp only
  rw [hx, hsibling]

theorem fixDeleteBlack_inner (hs : s.rootColor = .black) :
    ∃ m', m.fixDeleteBlack d (address m t) w = (m', m'.root) ∧ Keeps m m' ∧
      Represents m' (plug ctx (on d c (on d .black t p a) y (on d .black b w s))) := by
  obtain ⟨-, -, -, hucolor, -⟩ := sibling_reads h
  rw [rootColor_on] at hucolor
  obtain ⟨m₁, houter, hkeeps, hlacking, haddress⟩ := fixDeleteOuter_inner h hs
  obtain ⟨m', hm', hkeeps', hrep⟩ := fixDelete_tail hlacking (rootColor_on ..)
  rw [blacken_on] at hrep
  refine ⟨m', ?_, hkeeps.trans hkeeps', hrep⟩
  rw [← hm', haddress]
  simp only [Tree.fixDeleteBlack, hucolor, reduceCtorEq, false_and, if_false, houter,
    setColor_parent, setColor_child]

end

theorem fixDeleteSibling_red
    (h : Lacking m (⟨d, c, p, on d .red u w s⟩ :: ctx) t) :
    ∃ m', m.fixDeleteSibling d (address m t) w = (m', m'.child d.other p) ∧ Keeps m m' ∧
      Lacking m' (⟨d, .red, p, u⟩ :: ⟨d, .black, w, s⟩ :: ctx) t ∧ address m' t = address m t := by
  have hx : m.parent (address m t) = p := h.above
  have h₀ : Represents m (plug (⟨d.other, c, p, t⟩ :: ctx) (on d .red u w s)) := by
    rw [plug_swap]
    exact h.toRepresents
  have hcolor : m.color w = .red := h₀.node.2.2.2.1
  have h₁ := h₀.setColor .black
  rw [plug_swap] at h₁
  have h₂ := h₁.setColor .red
  have h₃ : Represents _ (plug (⟨d, .red, p, u⟩ :: ⟨d, .black, w, s⟩ :: ctx) t) := h₂.rotate
  have hnil := h₂.rotate_parent_nil
  have hkeeps := ((keeps_setColor m w .black).trans (keeps_setColor _ p .red)).trans
    (keeps_rotate _ d p).1
  obtain ⟨hlacking, haddress⟩ := h.next h₃ hkeeps.nil hnil rfl
  have hx' := hlacking.above
  rw [haddress] at hx'
  refine ⟨_, ?_, hkeeps, hlacking, haddress⟩
  simp only [Tree.fixDeleteSibling, hcolor, setColor_parent, hx]
  rw [hx']
  rfl

/-- The loop is at its end, and the store of `BLACK` behind it gives the tree. -/
structure Repaired (m : Tree T) (x : ℕ) (t : RBTree ℕ) : Prop where
  stop : x = m.root ∨ m.color x = .red
  represents : Represents (m.setColor x .black) t

theorem Repaired.loop (h : Repaired m x t) (rounds : ℕ) :
    fixDeleteLoop (rounds + 1) m x = some (m, x) := by
  rw [fixDeleteLoop, if_neg]
  rintro ⟨hroot, hblack⟩
  rcases h.stop with h | h
  · exact hroot h
  · cases h.symm.trans hblack

theorem Represents.repaired_root (h : Represents m t) : Repaired m m.root t.blacken :=
  ⟨.inl rfl, h.root_blacken⟩

theorem Represents.repaired_red (h : Represents m (plug ctx t)) (ht : t.rootColor = .red) :
    Repaired m (address m t) (plug ctx t.blacken) := by
  obtain ⟨a, k, b, rfl⟩ := exists_on_of_red .left ht
  obtain ⟨-, -, -, hcolor, -⟩ := h.node
  rw [blacken_on]
  exact ⟨.inr hcolor, h.setColor .black⟩

theorem eraseRepair_red_eq {f : Frame ℕ} (hr : EraseRepair (f :: ctx) t t')
    (ht : t.rootColor = .red) : t' = plug (f :: ctx) t.blacken := by
  cases hr with
  | red _ => rfl
  | sibling hblack _ _ => cases ht.symm.trans hblack
  | children hblack _ _ _ => cases ht.symm.trans hblack
  | inner hblack _ => cases ht.symm.trans hblack
  | outer hblack _ => cases ht.symm.trans hblack

/-- The body with a black sibling: it goes up, or comes to the end of the loop. -/
theorem fixDeleteBlack_repair {v : RBTree ℕ} (hr : EraseRepair (⟨d, c, p, v⟩ :: ctx) t t')
    (ht : t.rootColor = .black) (hv : v.rootColor = .black)
    (h : Lacking m (⟨d, c, p, v⟩ :: ctx) t) :
    ∃ m' x', m.fixDeleteBlack d (address m t) (m.child d.other p) = (m', x') ∧ Keeps m m' ∧
      ((∃ t₁, t₁.rootColor = c ∧ Lacking m' ctx t₁ ∧ x' = address m' t₁ ∧ EraseRepair ctx t₁ t') ∨
        Repaired m' x' t') := by
  cases hr with
  | red hred => cases ht.symm.trans hred
  | sibling _ _ _ =>
    rw [rootColor_on] at hv
    cases hv
  | children _ hu hs hrest =>
    obtain ⟨-, -, rfl, -⟩ := sibling_reads h
    obtain ⟨hstep, hrep⟩ := fixDeleteBlack_children h hu hs
    refine ⟨_, _, hstep, keeps_setColor _ _ _, .inl ⟨_, rootColor_on .., ?_, ?_, hrest⟩⟩
    · exact hrep.lacking fun hleaf => absurd hleaf on_ne_leaf
    · rw [address_on]
  | inner _ hs =>
    obtain ⟨-, -, rfl, -⟩ := sibling_reads h
    obtain ⟨m', hstep, hkeeps, hrep⟩ := fixDeleteBlack_inner h hs
    exact ⟨m', _, hstep, hkeeps, .inr hrep.repaired_root⟩
  | outer _ hs =>
    obtain ⟨-, -, rfl, -⟩ := sibling_reads h
    obtain ⟨m', hstep, hkeeps, hrep⟩ := fixDeleteBlack_outer h hs
    exact ⟨m', _, hstep, hkeeps, .inr hrep.repaired_root⟩

theorem fixDeleteStep_black (hr : EraseRepair (f :: ctx) t t') (ht : t.rootColor = .black)
    (hf : f.sibling.rootColor = .black) (h : Lacking m (f :: ctx) t) :
    ∃ m' x', m.fixDeleteStep f.side (address m t) = (m', x') ∧ Keeps m m' ∧
      ((∃ t₁, Lacking m' ctx t₁ ∧ x' = address m' t₁ ∧ EraseRepair ctx t₁ t') ∨
        Repaired m' x' t') := by
  obtain ⟨-, -, -, -, -, hsibling⟩ := h.frame
  have hcolor := (hsibling.color h.nil).trans hf
  obtain ⟨d, c, p, v⟩ := f
  have hx : m.parent (address m t) = p := h.above
  obtain ⟨m', x', hbody, hkeeps, hnext⟩ := fixDeleteBlack_repair hr ht hf h
  refine ⟨m', x', ?_, hkeeps, hnext.imp (fun ⟨t₁, _, hlacking⟩ => ⟨t₁, hlacking⟩) id⟩
  simp only [Tree.fixDeleteStep, Tree.fixDeleteSibling, hx, hcolor, reduceCtorEq, if_false, hbody]

theorem fixDeleteStep_red (h : Lacking m (⟨d, c, p, on d .red u w s⟩ :: ctx) t)
    (hr : EraseRepair (⟨d, .red, p, u⟩ :: ⟨d, .black, w, s⟩ :: ctx) t t')
    (ht : t.rootColor = .black) (hu : u.rootColor = .black) :
    ∃ m' x', m.fixDeleteStep d (address m t) = (m', x') ∧ Keeps m m' ∧ Repaired m' x' t' := by
  have hx : m.parent (address m t) = p := h.above
  have hw : m.child d.other p = w := (shape_on.mp h.frame.2.2.2.2.2).1
  obtain ⟨m₁, hsibling, hkeeps, hlacking, haddress⟩ := fixDeleteSibling_red h
  obtain ⟨m', x', hbody, hkeeps', hnext⟩ := fixDeleteBlack_repair hr ht hu hlacking
  refine ⟨m', x', ?_, hkeeps.trans hkeeps', ?_⟩
  · rw [haddress] at hbody
    simp only [Tree.fixDeleteStep, hx, hw, hsibling, hbody]
  · rcases hnext with ⟨t₁, hred, hlacking', rfl, hrest⟩ | hrepaired
    · rw [eraseRepair_red_eq hrest hred]
      exact hlacking'.toRepresents.repaired_red hred
    · exact hrepaired

theorem Fits.root_mem (h : Fits m (f :: ctx)) : m.root ∈ contextEntries (f :: ctx) := by
  induction ctx generalizing f with
  | nil =>
    have hroot : m.root = f.entry := h.1
    rw [hroot]
    exact mem_cons_self
  | cons g ctx ih =>
    exact mem_cons_of_mem _ (mem_append_right _ (ih h.2.2.2.2.2))

theorem fixDeleteLoop_step (h : Lacking m (f :: ctx) t) (ht : t.rootColor = .black)
    (hsibling : f.sibling ≠ .leaf) (rounds : ℕ) : fixDeleteLoop (rounds + 1) m (address m t) =
      fixDeleteLoop rounds (m.fixDeleteStep f.side (address m t)).1
        (m.fixDeleteStep f.side (address m t)).2 := by
  have hshape := h.split.2
  have hcolor : m.color (address m t) = .black := by
    rw [← h.hole_eq, hshape.color h.nil, ht]
  have hroot : address m t ≠ m.root := by
    have hmem := h.split.1.root_mem
    obtain ⟨-, -, hdisjoint⟩ := nodup_inorder_plug.mp h.nodup
    rw [← h.hole_eq]
    rintro heq
    rw [← heq] at hmem
    rcases hshape.mem_or_nil with hin | hnil
    · exact hdisjoint hin hmem
    · exact h.split.1.ne_nil _ hmem hnil
  have hparent : m.parent (address m t) = f.entry := h.above
  have hside := h.side (.inr hsibling) .left
  rw [h.hole_eq] at hside
  rw [fixDeleteLoop, if_pos ⟨hroot, hcolor⟩, hparent]
  cases hf : f.side with
  | left => rw [if_pos (hside.mpr hf)]
  | right => rw [if_neg (fun hleft => absurd (hf.symm.trans (hside.mp hleft)) nofun)]

theorem eraseRepair_sibling {f : Frame ℕ} (hr : EraseRepair (f :: ctx) t t')
    (ht : t.rootColor = .black) : f.sibling ≠ .leaf ∧ (f.sibling.rootColor = .black ∨
      ∃ u w s, f.sibling = on f.side .red u w s ∧ u.rootColor = .black ∧
        EraseRepair (⟨f.side, .red, f.entry, u⟩ :: ⟨f.side, .black, w, s⟩ :: ctx) t t') := by
  cases hr with
  | red hred => cases ht.symm.trans hred
  | sibling _ hu hrest => exact ⟨on_ne_leaf, .inr ⟨_, _, _, rfl, hu, hrest⟩⟩
  | children _ _ _ _ => exact ⟨on_ne_leaf, .inl (rootColor_on ..)⟩
  | inner _ _ => exact ⟨on_ne_leaf, .inl (rootColor_on ..)⟩
  | outer _ _ => exact ⟨on_ne_leaf, .inl (rootColor_on ..)⟩

theorem fixDeleteLoop_repair (hr : EraseRepair ctx t t') {rounds : ℕ} (h : Lacking m ctx t)
    (hrounds : ctx.length < rounds) :
    ∃ m' x', fixDeleteLoop rounds m (address m t) = some (m', x') ∧ Keeps m m' ∧
      Represents (m'.setColor x' .black) t' := by
  induction ctx generalizing m t rounds with
  | nil =>
    obtain _ | rounds := rounds
    · omega
    cases hr with
    | root =>
      have hrepaired := Represents.repaired_root h.toRepresents
      rw [show address m t = m.root from h.hole_eq.symm]
      exact ⟨m, _, hrepaired.loop rounds, .refl m, hrepaired.represents⟩
  | cons f ctx ih =>
    obtain _ | rounds := rounds
    · omega
    have hrounds' : ctx.length < rounds := Nat.lt_of_succ_lt_succ hrounds
    obtain ⟨rounds, rfl⟩ := Nat.exists_eq_add_one_of_ne_zero (Nat.ne_zero_of_lt hrounds')
    cases ht : t.rootColor with
    | red =>
      have hrepaired := h.toRepresents.repaired_red ht
      rw [← eraseRepair_red_eq hr ht] at hrepaired
      exact ⟨m, _, hrepaired.loop _, .refl m, hrepaired.represents⟩
    | black =>
      obtain ⟨hne, hsibling⟩ := eraseRepair_sibling hr ht
      rw [fixDeleteLoop_step h ht hne]
      rcases hsibling with hblack | ⟨u, w, s, hred, hu, hrest⟩
      · obtain ⟨m₁, x₁, hstep, hkeeps, hnext⟩ := fixDeleteStep_black hr ht hblack h
        rw [hstep]
        rcases hnext with ⟨t₁, hlacking, rfl, hrest⟩ | hrepaired
        · obtain ⟨m₂, x₂, hloop, hkeeps', hrep⟩ := ih hrest hlacking hrounds'
          exact ⟨m₂, x₂, hloop, hkeeps.trans hkeeps', hrep⟩
        · exact ⟨m₁, x₁, hrepaired.loop rounds, hkeeps, hrepaired.represents⟩
      · obtain ⟨d, c, p, v⟩ := f
        obtain rfl : v = on d .red u w s := hred
        obtain ⟨m₁, x₁, hstep, hkeeps, hrepaired⟩ := fixDeleteStep_red h hrest ht hu
        rw [hstep]
        exact ⟨m₁, x₁, hrepaired.loop rounds, hkeeps, hrepaired.represents⟩

theorem fixDelete_repair (hr : EraseRepair ctx t t') (h : Lacking m ctx t) :
    ∃ m', m.fixDelete (address m t) = some m' ∧ Keeps m m' ∧ Represents m' t' := by
  have hdepth := h.depth_le
  have hrounds : ctx.length < m.allocated + 1 := by omega
  obtain ⟨m', x', hloop, hkeeps, hrep⟩ := fixDeleteLoop_repair hr h hrounds
  refine ⟨m'.setColor x' .black, ?_, hkeeps.trans (keeps_setColor _ _ _), hrep⟩
  rw [Tree.fixDelete, hloop]
  rfl

/-! The node is taken out. -/

theorem transplant_eq (h : Linked m ctx z) (x : ℕ) :
    m.transplant z x = (setHole m ctx x).setParent x (above m ctx) := by
  rw [Tree.transplant, relink_eq h, setHole_parent, h.parent]

theorem keeps_transplant (m : Tree T) (z x : ℕ) :
    Keeps m (m.transplant z x) ∧ (m.transplant z x).color = m.color := by
  obtain ⟨hkeeps, hcolor⟩ := keeps_relink m .left z x
  exact ⟨hkeeps.trans ⟨rfl, rfl, rfl⟩, hcolor⟩

theorem Fits.transplant (h : Fits m ctx) (hnodup : (contextEntries ctx).Nodup)
    (hx : x ∉ contextEntries ctx) : Fits ((setHole m ctx x).setParent x (above m ctx)) ctx ∧
      above ((setHole m ctx x).setParent x (above m ctx)) ctx = above m ctx ∧
      hole ((setHole m ctx x).setParent x (above m ctx)) ctx = x := by
  have hparent : ∀ w ∈ contextEntries ctx,
      ((setHole m ctx x).setParent x (above m ctx)).parent w = m.parent w := by
    intro w hw
    have hne : w ≠ x := ne_of_mem_of_not_mem hw hx
    rw [setParent_parent, update_of_ne hne, setHole_parent]
  obtain ⟨hfits, habove⟩ : Fits ((setHole m ctx x).setParent x (above m ctx)) ctx ∧
      above ((setHole m ctx x).setParent x (above m ctx)) ctx = above m ctx :=
    h.refill hnodup (setHole_nil ..) setHole_root
      (fun w hw => ⟨congrFun (setHole_color ..) w, hparent w hw⟩)
      fun w hw e htop => setHole_child htop
  have hhole : hole (setHole m ctx x) ctx = x := hole_setHole
  refine ⟨hfits, habove, Eq.trans ?_ hhole⟩
  cases ctx <;> rfl

theorem Represents.transplant (h : Represents m (plug ctx (on d c .leaf z t))) :
    Lacking (m.transplant z (m.child d.other z)) ctx t := by
  obtain ⟨hfits, -⟩ := h.split
  obtain ⟨-, hznil, -, -, -, ht⟩ := h.node
  obtain ⟨htree, hctx, hdisjoint⟩ := nodup_inorder_plug.mp h.nodup
  obtain ⟨-, hzt, -, htnodup, -⟩ := nodup_inorder_on.mp htree
  have hmem : ∀ {w}, w ∈ t.inorder → w ∉ contextEntries ctx := fun hw =>
    hdisjoint (mem_inorder_on.mpr (.inr (.inr hw)))
  have hx : m.child d.other z ∉ contextEntries ctx := fun hin => by
    rcases ht.mem_or_nil with hw | hnil
    · exact hmem hw hin
    · exact hfits.ne_nil _ hin hnil
  obtain ⟨hfits', habove, hhole⟩ := hfits.transplant hctx hx
  rw [transplant_eq h.linked]
  have hsub : ∀ w ∈ (plug ctx t).inorder, w ∈ (plug ctx (on d c .leaf z t)).inorder := by
    intro w hw
    rcases mem_inorder_plug.mp hw with hw | hw
    · exact mem_inorder_plug.mpr (.inl (mem_inorder_on.mpr (.inr (.inr hw))))
    · exact mem_inorder_plug.mpr (.inr hw)
  refine ⟨⟨shape_plug.mpr ⟨hfits', ?_⟩, ?_, ?_, fun w hw => ?_, ?_⟩, ?_⟩
  · rw [hhole, habove]
    refine ht.move htnodup (setHole_nil ..) (fun w hw => ⟨congrFun (setHole_color ..) w,
      fun e => setHole_child fun htop => hmem hw htop.mem⟩) fun w hw => ?_
    rw [setParent_parent, update_apply, setHole_parent]
  · exact nodup_inorder_plug.mpr ⟨htnodup, hctx, fun w hw => hmem hw⟩
  · rw [Tree.setParent_nil, setHole_nil, Tree.setParent_color, setHole_color]
    exact h.nil
  · rw [Tree.setParent_allocated, setHole_allocated]
    exact h.bounded w (hsub w hw)
  · rw [Tree.setParent_nil, setHole_nil, Tree.setParent_allocated, setHole_allocated]
    exact h.sentinel
  · have haddress : address ((setHole m ctx (m.child d.other z)).setParent (m.child d.other z)
        (above m ctx)) t = m.child d.other z := by
      rw [ht.eq_address]
      cases t with
      | leaf => exact setHole_nil ..
      | node => rfl
    rw [haddress, habove]
    exact update_self _ _ _

theorem replace_eq (h : Linked m ctx z) (hz : z ∉ contextEntries ctx) :
    m.replace z y = ((((setHole m ctx y).setParent y (above m ctx)).setChild .left y
      (m.child .left z)).setParent (m.child .left z) y).setColor y (m.color z) := by
  have hleft : ((setHole m ctx y).setParent y (above m ctx)).child .left z = m.child .left z :=
    setHole_child fun htop => hz htop.mem
  have hstored : (((setHole m ctx y).setParent y (above m ctx)).setChild .left y
      (m.child .left z)).child .left y = m.child .left z := by
    rw [setChild_child, if_pos ⟨rfl, rfl⟩]
  have hcolor : ((setHole m ctx y).setParent y (above m ctx)).color z = m.color z :=
    congrFun (setHole_color ..) z
  simp only [Tree.replace, transplant_eq h, hleft, hstored, Tree.setChild_color]
  rw [← hcolor]
  rfl

variable {l : RBTree ℕ}

theorem Fits.replace {r : RBTree ℕ} (hfits : Fits m ctx) (hlinked : Linked m ctx z)
    (hz : z ∉ contextEntries ctx) (hy : y ≠ m.nil) (hl : Shape m z (m.child .left z) l)
    (hlne : l ≠ .leaf) (hr : Shape m y (m.child .right y) r)
    (hnodup : (plug ctx (on .left (m.color z) l y r)).inorder.Nodup) :
    Keeps m (m.replace z y) ∧ Fits (m.replace z y) ctx ∧
      Shape (m.replace z y) (above (m.replace z y) ctx) (hole (m.replace z y) ctx)
        (on .left (m.color z) l y r) ∧ (m.replace z y).parent m.nil = m.parent m.nil ∧
      (m.replace z y).color m.nil = m.color m.nil := by
  obtain ⟨htree, hctx, hdisjoint⟩ := nodup_inorder_plug.mp hnodup
  obtain ⟨hyl, hyr, hlnodup, -, hlr⟩ := nodup_inorder_on.mp htree
  have hlmem : m.child .left z ∈ l.inorder := hl.mem_or_nil.resolve_right fun hnil =>
    hlne (hl.eq_nil.mp hnil)
  have hyctx : y ∉ contextEntries ctx := hdisjoint (mem_inorder_on.mpr (.inl rfl))
  have hlctx : ∀ {w}, w ∈ l.inorder → w ∉ contextEntries ctx := fun hw =>
    hdisjoint (mem_inorder_on.mpr (.inr (.inl hw)))
  have hrctx : ∀ {w}, w ∈ r.inorder → w ∉ contextEntries ctx := fun hw =>
    hdisjoint (mem_inorder_on.mpr (.inr (.inr hw)))
  have hchild : ∀ e w, w ≠ y → ¬ TopLink ctx e w → (m.replace z y).child e w = m.child e w := by
    intro e w hw htop
    rw [replace_eq hlinked hz, setColor_child, setParent_child, setChild_child,
      if_neg fun heq => hw heq.2]
    exact setHole_child htop
  have hparent : ∀ w, (m.replace z y).parent w =
      if w = m.child .left z then y else if w = y then above m ctx else m.parent w := by
    intro w
    rw [replace_eq hlinked hz, setColor_parent, setParent_parent,
      update_apply, Tree.setChild_parent, setParent_parent, update_apply,
      setHole_parent]
  have hcolor : ∀ w, (m.replace z y).color w = if w = y then m.color z else m.color w := by
    intro w
    rw [replace_eq hlinked hz, Tree.setColor_color, update_apply, Tree.setParent_color,
      Tree.setChild_color, Tree.setParent_color, setHole_color]
  have hkeeps : Keeps m (m.replace z y) := by
    rw [replace_eq hlinked hz]
    exact ⟨setHole_nil .., setHole_value .., setHole_allocated ..⟩
  have hother : ∀ {w}, w ∉ l.inorder → w ≠ y → (m.replace z y).parent w = m.parent w ∧
      (m.replace z y).color w = m.color w := by
    intro w hwl hwy
    rw [hparent, if_neg fun heq : w = m.child .left z => hwl (heq ▸ hlmem), if_neg hwy, hcolor,
      if_neg hwy]
    exact ⟨rfl, rfl⟩
  have hhole : hole (m.replace z y) ctx = y := by
    rw [replace_eq hlinked hz]
    cases ctx with
    | nil => rfl
    | cons f ctx =>
      have hf : ¬ (f.side = .left ∧ f.entry = y) := fun hf => hyctx (hf.2 ▸ mem_cons_self)
      refine (setChild_child ..).trans ((if_neg hf).trans ?_)
      exact @hole_setHole T m y (f :: ctx)
  have hroot : ctx ≠ [] → (m.replace z y).root = m.root := by
    rw [replace_eq hlinked hz]
    exact setHole_root
  obtain ⟨hfits', habove⟩ :=
    hfits.refill hctx hkeeps.nil hroot
      (fun w hw => (hother (fun hwl => hlctx hwl hw) (ne_of_mem_of_not_mem hw hyctx)).symm)
      fun w hw e htop => hchild e w (ne_of_mem_of_not_mem hw hyctx) htop
  refine ⟨hkeeps, hfits', shape_on.mpr ⟨hhole, ?_, ?_, ?_, ?_, ?_⟩, ?_⟩
  · rw [hkeeps.nil]
    exact hy
  · rw [hparent, if_neg (ne_of_mem_of_not_mem hlmem hyl).symm, if_pos rfl, habove]
  · rw [hcolor, if_pos rfl]
  · have hleft : (m.replace z y).child .left y = m.child .left z := by
      rw [replace_eq hlinked hz, setColor_child, setParent_child, setChild_child,
        if_pos ⟨rfl, rfl⟩]
    rw [hleft]
    refine hl.move hlnodup hkeeps.nil (fun w hw => ⟨?_, fun e => ?_⟩) fun w hw => ?_
    · rw [hcolor, if_neg (ne_of_mem_of_not_mem hw hyl)]
    · exact hchild e w (ne_of_mem_of_not_mem hw hyl) fun htop => hlctx hw htop.mem
    · rw [hparent, if_neg (ne_of_mem_of_not_mem hw hyl)]
  · have hright : (m.replace z y).child .right y = m.child .right y := by
      rw [replace_eq hlinked hz, setColor_child, setParent_child, setChild_child]
      exact setHole_child fun htop => hyctx htop.mem
    rw [Side.other, hright]
    refine hr.congr hkeeps.nil fun w hw => ?_
    have hwy : w ≠ y := ne_of_mem_of_not_mem hw hyr
    obtain ⟨hwparent, hwcolor⟩ := hother (fun hwl => hlr hwl hw) hwy
    exact ⟨hwcolor, fun e => hchild e w hwy fun htop => hrctx hw htop.mem, hwparent⟩
  · exact hother (fun hnl => hl.ne_nil _ hnl rfl) hy.symm

/-- The node `y` is out of its place and has `r` on its right. -/
structure Detached (m : Tree T) (ctx : List (Frame ℕ)) (c : Color) (l : RBTree ℕ) (z y : ℕ)
    (r : RBTree ℕ) : Prop where
  fits : Fits m ctx
  linked : Linked m ctx z
  color : m.color z = c
  left : Shape m z (m.child .left z) l
  right : Shape m y (m.child .right y) r

theorem keeps_detach (m : Tree T) (z y : ℕ) :
    Keeps m (m.detach z y) ∧ (m.detach z y).color = m.color := by
  rw [Tree.detach]
  split
  · exact ⟨⟨rfl, rfl, rfl⟩, rfl⟩
  · obtain ⟨hkeeps, hcolor⟩ := keeps_transplant m y (m.child .right y)
    exact ⟨hkeeps.trans ⟨rfl, rfl, rfl⟩, hcolor⟩

variable {cy : Color}

theorem Represents.detach_child
    (h : Represents m (plug ctx (on .left c l z (on .left cy .leaf y u)))) :
    Detached (m.detach z y) ctx c l z y u ∧ (u = .leaf → (m.detach z y).parent m.nil = y) := by
  obtain ⟨hfits, -⟩ := h.split
  obtain ⟨-, hznil, -, hcolor, hl, hright⟩ := h.node
  obtain ⟨-, hynil, hyparent, -, -, hu⟩ := shape_on.mp hright
  have heq : m.detach z y = m.setParent (m.child .right y) y := by
    rw [Tree.detach, if_pos hyparent]
  have hsame : ∀ w, w ≠ m.nil → SameNode m (m.detach z y) w := by
    intro w hw
    rw [heq]
    refine ⟨rfl, fun _ => rfl, ?_⟩
    rw [setParent_parent, update_apply]
    by_cases hwx : w = m.child .right y
    · rw [if_pos hwx]
      cases u with
      | leaf => exact absurd (hwx.trans (shape_leaf.mp hu)) hw
      | node c' l' x r' =>
        obtain ⟨hx, -, hxparent, -⟩ := hu
        rw [hwx, show m.child .right y = x from hx, hxparent]
    · rw [if_neg hwx]
  have hnil : (m.detach z y).nil = m.nil := by rw [heq]; rfl
  have hroot : (m.detach z y).root = m.root := by rw [heq]; rfl
  have hchild : (m.detach z y).child = m.child := by rw [heq]; rfl
  refine ⟨⟨?_, ?_, ?_, ?_, ?_⟩, fun hleaf => ?_⟩
  · exact (hfits.congr hnil hroot fun w hw => hsame w (hfits.ne_nil w hw)).1
  · exact h.linked.congr hnil hroot (hsame z hznil).parent fun f _ e => by rw [hchild]
  · exact (hsame z hznil).color.trans hcolor
  · rw [hchild]
    exact hl.congr hnil fun w hw => hsame w (hl.ne_nil w hw)
  · rw [hchild]
    exact hu.congr hnil fun w hw => hsame w (hu.ne_nil w hw)
  · subst hleaf
    rw [heq, show m.child .right y = m.nil from hu]
    exact update_self _ _ _

variable {lower : List (Frame ℕ)}

theorem Represents.detach_below
    (h : Represents m (plug ctx (on .left c l z (plug (f :: lower) (on .left cy .leaf y u))))) :
    Detached (m.detach z y) ctx c l z y (plug (f :: lower) u) ∧
      (u = .leaf → (m.detach z y).parent m.nil = f.entry) := by
  have hplug : ∀ s, plug ctx (on .left c l z (plug (f :: lower) s)) =
      plug (f :: (lower ++ ⟨.right, c, z, l⟩ :: ctx)) s := fun s =>
    (plug_append (f :: lower) (⟨.right, c, z, l⟩ :: ctx) s).symm
  have hbelow := h
  rw [hplug] at hbelow
  obtain ⟨-, hynil, hyparent, -⟩ := hbelow.node
  have hlacking := hbelow.transplant
  obtain ⟨htree, -, hyctx⟩ := nodup_inorder_plug.mp hbelow.nodup
  have hy : y ∉ (plug (f :: (lower ++ ⟨.right, c, z, l⟩ :: ctx)) u).inorder := by
    intro hin
    rcases mem_inorder_plug.mp hin with hin | hin
    · exact (nodup_inorder_on.mp htree).2.1 hin
    · exact hyctx (mem_inorder_on.mpr (.inl rfl)) hin
  have hfz : f.entry ≠ z := by
    obtain ⟨-, hcontext, -⟩ := nodup_inorder_plug.mp hbelow.nodup
    obtain ⟨hnot, -⟩ := nodup_cons.mp hcontext
    rintro rfl
    refine hnot (mem_append_right _ ?_)
    refine mem_inorder_plug (t := .leaf).mp ?_ |>.resolve_left not_mem_nil
    rw [plug_append]
    exact mem_inorder_plug.mpr (.inr mem_cons_self)
  have hz : m.parent y ≠ z := by
    rw [hyparent]
    exact hfz
  obtain ⟨hkeeps, -⟩ := keeps_transplant m y (m.child .right y)
  have h₁ : Represents (m.transplant y (m.child .right y))
      (plug ctx (on .left c l z (plug (f :: lower) u))) := by
    rw [hplug]
    exact hlacking.toRepresents
  have habove : u = .leaf → (m.transplant y (m.child .right y)).parent m.nil = f.entry := by
    rintro rfl
    rw [← hkeeps.nil]
    exact hlacking.above
  rw [← hplug] at hy
  have heq : m.detach z y = ((m.transplant y (m.child .right y)).setChild .right y
      ((m.transplant y (m.child .right y)).child .right z)).setParent
        ((m.transplant y (m.child .right y)).child .right z) y := by
    have hstored : ∀ (m : Tree T) (x : ℕ), (m.setChild .right y x).child .right y = x := by
      intro m x
      rw [setChild_child, if_pos ⟨rfl, rfl⟩]
    simp only [Tree.detach, if_neg hz, hstored]
  generalize m.transplant y (m.child .right y) = m₁ at *
  have hynil₁ : y ≠ m₁.nil := hkeeps.nil ▸ hynil
  obtain ⟨hfits, -⟩ := h₁.split
  obtain ⟨-, hznil, -, hcolor, hl, hr⟩ := h₁.node
  obtain ⟨htree₁, -, hdisjoint⟩ := nodup_inorder_plug.mp h₁.nodup
  obtain ⟨hzl, hzr, -, hrnodup, hlr⟩ := nodup_inorder_on.mp htree₁
  have hmem : ∀ {w}, w ∈ (plug (f :: lower) u).inorder →
      w ∈ (on .left c l z (plug (f :: lower) u)).inorder := fun hw =>
    mem_inorder_on.mpr (.inr (.inr hw))
  have hentry : f.entry ∈ (plug (f :: lower) u).inorder :=
    mem_inorder_plug.mpr (.inr mem_cons_self)
  have hxr : m₁.child .right z ∈ (plug (f :: lower) u).inorder := by
    refine hr.mem_or_nil.resolve_right fun hnil => ?_
    rw [hr.eq_nil.mp hnil] at hentry
    exact not_mem_nil hentry
  have hyne : ∀ {w}, w ∈ (plug ctx (on .left c l z (plug (f :: lower) u))).inorder → w ≠ y :=
    fun hw => ne_of_mem_of_not_mem hw hy
  have hchild : ∀ e w, w ≠ y → (m.detach z y).child e w = m₁.child e w := fun e w hw => by
    rw [heq, setParent_child, setChild_child, if_neg fun h => hw h.2]
  have hparent : ∀ w, (m.detach z y).parent w =
      if w = m₁.child .right z then y else m₁.parent w := fun w => by
    rw [heq, setParent_parent, update_apply]
    rfl
  have hsame : ∀ w, w ≠ y → w ∉ (plug (f :: lower) u).inorder → SameNode m₁ (m.detach z y) w := by
    intro w hw hwr
    refine ⟨by rw [heq]; rfl, fun e => hchild e w hw, ?_⟩
    rw [hparent, if_neg (ne_of_mem_of_not_mem hxr hwr).symm]
  have hnil : (m.detach z y).nil = m₁.nil := by rw [heq]; rfl
  have hroot : (m.detach z y).root = m₁.root := by rw [heq]; rfl
  have hzy : z ≠ y := hyne (mem_inorder_plug.mpr (.inl (mem_inorder_on.mpr (.inl rfl))))
  have hctxy : ∀ {w}, w ∈ contextEntries ctx → w ≠ y := fun hw =>
    hyne (mem_inorder_plug.mpr (.inr hw))
  have hright : (m.detach z y).child .right y = m₁.child .right z := by
    rw [heq, setParent_child, setChild_child, if_pos ⟨rfl, rfl⟩]
  refine ⟨⟨?_, ?_, ?_, ?_, ?_⟩, fun hleaf => ?_⟩
  · exact (hfits.congr hnil hroot fun w hw =>
      hsame w (hctxy hw) fun hwr => hdisjoint (hmem hwr) hw).1
  · exact h₁.linked.congr hnil hroot (hsame z hzy hzr).parent fun g hg e =>
      hchild e _ (hctxy (head_mem_contextEntries hg))
  · exact (hsame z hzy hzr).color.trans hcolor
  · rw [hchild _ _ hzy]
    exact hl.congr hnil fun w hw => hsame w
      (hyne (mem_inorder_plug.mpr (.inl (mem_inorder_on.mpr (.inr (.inl hw))))))
      fun hwr => hlr hw hwr
  · rw [hright]
    refine hr.move hrnodup hnil (fun w hw => ⟨by rw [heq]; rfl, fun e => ?_⟩) fun w hw => hparent w
    exact hchild e w (hyne (mem_inorder_plug.mpr (.inl (hmem hw))))
  · rw [hparent, if_neg, habove hleaf]
    rintro heqnil
    exact hr.ne_nil _ hxr (heqnil.symm.trans hkeeps.nil.symm)

theorem Represents.detach
    (h : Represents m (plug ctx (on .left c l z (plug lower (on .left cy .leaf y u))))) :
    Detached (m.detach z y) ctx c l z y (plug lower u) ∧ (u = .leaf → (m.detach z y).parent m.nil =
      above m (lower ++ ⟨.right, c, y, l⟩ :: ctx)) := by
  cases lower with
  | nil => exact h.detach_child
  | cons f lower => exact h.detach_below

/-- What the removal of `z` makes of the tree: the node that goes from the shape is one without a
left or a right child. -/
structure Removal (ctx : List (Frame ℕ)) (c : Color) (l : RBTree ℕ) (z : ℕ) (r : RBTree ℕ)
    (ctx' : List (Frame ℕ)) (c' : Color) (t' : RBTree ℕ) : Prop where
  rules : (plug ctx (on .left c l z r)).ColorRules →
    ∃ d x, (plug ctx' (on d c' .leaf x t')).ColorRules
  entries : ∃ a b, (plug ctx (on .left c l z r)).inorder = a ++ z :: b ∧
    (plug ctx' t').inorder = a ++ b

theorem removal_left (ctx : List (Frame ℕ)) (c : Color) (z : ℕ) (r : RBTree ℕ) :
    Removal ctx c .leaf z r ctx c r := by
  refine ⟨fun h => ⟨.left, z, h⟩, (beyond .right ctx).reverse, r.inorder ++ beyond .left ctx,
    ?_, ?_⟩
  · rw [inorder_plug, append_assoc]
    rfl
  · rw [inorder_plug, append_assoc]

theorem removal_right (ctx : List (Frame ℕ)) (c : Color) (l : RBTree ℕ) (z : ℕ) :
    Removal ctx c l z .leaf ctx c l := by
  refine ⟨fun h => ⟨.right, z, h⟩, (beyond .right ctx).reverse ++ l.inorder, beyond .left ctx,
    ?_, ?_⟩
  · rw [inorder_plug, on_left, inorder, append_assoc, append_assoc, append_assoc]
    rfl
  · rw [inorder_plug]

theorem removal_least (hside : ∀ f ∈ lower, f.side = .left) :
    Removal ctx c l z (plug lower (on .left cy .leaf y u)) (lower ++ ⟨.right, c, y, l⟩ :: ctx) cy
      u := by
  have hbeyond : beyond .right lower = [] := beyond_other_of_side hside
  refine ⟨fun h => ⟨.left, y, ?_⟩, (beyond .right ctx).reverse ++ l.inorder,
    y :: (plug lower u).inorder ++ beyond .left ctx, ?_, ?_⟩
  · rw [plug_append]
    exact ColorRules.rename h y
  · have hleast : (plug lower (on .left cy .leaf y u)).inorder = y :: (plug lower u).inorder := by
      rw [inorder_plug, inorder_plug, hbeyond]
      rfl
    rw [inorder_plug, on_left, inorder, hleast]
    simp only [append_assoc, cons_append]
  · rw [plug_append, plug_cons, inorder_plug, Frame.fill]
    simp only [on, inorder, append_assoc]

theorem Represents.unlink_least
    (h : Represents m (plug ctx (on .left c l z (plug lower (on .left cy .leaf y u)))))
    (hl : l ≠ .leaf) (hside : ∀ f ∈ lower, f.side = .left) :
    Lacking ((m.detach z y).replace z y) (lower ++ ⟨.right, c, y, l⟩ :: ctx) u ∧
      Keeps m ((m.detach z y).replace z y) := by
  obtain ⟨hdetached, hparent⟩ := h.detach
  obtain ⟨hkeeps, hcolors⟩ := keeps_detach m z y
  have hremoval : Removal ctx c l z (plug lower (on .left cy .leaf y u))
      (lower ++ ⟨.right, c, y, l⟩ :: ctx) cy u := removal_least hside
  obtain ⟨-, a, b, hbefore, hafter⟩ := hremoval
  have hsub : (a ++ b).Sublist (a ++ z :: b) := (sublist_cons_self z b).append_left a
  have hnodup := hsub.nodup (hbefore ▸ h.nodup)
  have hbounded : ∀ w ∈ a ++ b, w < m.allocated := fun w hw =>
    h.bounded w (hbefore ▸ hsub.subset hw)
  have hynil : y ≠ m.nil := by
    refine h.shape.ne_nil y (mem_inorder_plug.mpr (.inl (mem_inorder_on.mpr (.inr (.inr ?_)))))
    exact mem_inorder_plug.mpr (.inl (mem_inorder_on.mpr (.inl rfl)))
  have hz : z ∉ contextEntries ctx :=
    (nodup_inorder_plug.mp h.nodup).2.2 (mem_inorder_on.mpr (.inl rfl))
  rw [← hafter, plug_append] at hnodup
  obtain ⟨hkeeps', hfits, hshape, hnil, hblack⟩ := hdetached.fits.replace hdetached.linked hz
    (hkeeps.nil ▸ hynil) hdetached.left hl hdetached.right (by rw [hdetached.color]; exact hnodup)
  rw [hdetached.color] at hshape
  have hkept := hkeeps.trans hkeeps'
  refine ⟨Represents.lacking ⟨?_, ?_, ?_, ?_, ?_⟩ fun hleaf => ?_, hkept⟩
  · rw [plug_append, plug_cons]
    exact shape_plug.mpr ⟨hfits, hshape⟩
  · rw [plug_append]
    exact hnodup
  · rw [hkeeps'.nil, hblack, hcolors, hkeeps.nil]
    exact h.nil
  · rw [hafter, hkept.allocated]
    exact hbounded
  · rw [hkept.nil, hkept.allocated]
    exact h.sentinel
  · rw [hkeeps'.nil, hnil, hkeeps.nil, hparent hleaf]
    cases lower <;> rfl

theorem Represents.unlink {r : RBTree ℕ} (h : Represents m (plug ctx (on .left c l z r))) :
    ∃ m' ctx' c' t', m.unlink z = some (m', address m' t', c') ∧ Keeps m m' ∧
      Lacking m' ctx' t' ∧ Removal ctx c l z r ctx' c' t' := by
  obtain ⟨-, -, -, hcolor, hl, hr⟩ := h.node
  rw [Side.other] at hr
  have haddress : ∀ {m' : Tree T} {t : RBTree ℕ} {q x : ℕ}, Keeps m m' → Shape m q x t →
      x = address m' t := by
    intro m' t q x hkeeps hx
    rw [hx.eq_address]
    cases t with
    | leaf => exact hkeeps.nil.symm
    | node => rfl
  by_cases hleft : l = .leaf
  · subst hleft
    have hkeeps := (keeps_transplant m z (m.child .right z)).1
    refine ⟨_, ctx, c, r, ?_, hkeeps, h.transplant, removal_left ctx c z r⟩
    rw [Tree.unlink, if_pos (shape_leaf.mp hl), hcolor, ← haddress hkeeps hr]
  by_cases hright : r = .leaf
  · subst hright
    have hflip : Represents m (plug ctx (on .right c .leaf z l)) := h
    have hkeeps := (keeps_transplant m z (m.child .left z)).1
    refine ⟨_, ctx, c, l, ?_, hkeeps, hflip.transplant, removal_right ctx c l z⟩
    rw [Tree.unlink, if_neg fun hnil => hleft (hl.eq_nil.mp hnil), if_pos (shape_leaf.mp hr),
      hcolor, ← haddress hkeeps hl]
  · cases r with
    | leaf => exact absurd rfl hright
    | node cr lr x rr =>
      have hdown : Represents m (plug (⟨.right, c, z, l⟩ :: ctx) (on .left cr lr x rr)) := h
      have hlength := h.length_le
      rw [(inorder_plug_perm ctx _).length_eq, length_append,
        (inorder_on_perm ..).length_eq, length_append, length_cons, RBTree.inorder,
        length_append] at hlength
      obtain ⟨lower, cy, y, u, heq, hside, hmin⟩ :=
        hdown.descend (by omega : lr.inorder.length < m.allocated + 1)
      rw [← on_left, heq] at h ⊢
      obtain ⟨hlacking, hkeeps⟩ := h.unlink_least hleft hside
      have hy : Represents m
          (plug (lower ++ ⟨.right, c, z, l⟩ :: ctx) (on .left cy .leaf y u)) := by
        rw [plug_append]
        exact h
      obtain ⟨-, -, -, hycolor, -, hu⟩ := hy.node
      refine ⟨_, _, cy, u, ?_, hkeeps, hlacking, removal_least hside⟩
      have hx : m.child .right z = x := hr.1
      rw [Tree.unlink, if_neg fun hnil => hleft (hl.eq_nil.mp hnil),
        if_neg fun hnil => hright (hr.eq_nil.mp hnil), hx, Tree.minimum, hmin, ← hycolor,
        ← haddress hkeeps hu]
      rfl

/-- What `Erase` does to a tree: it finds no such value, or takes the node with it out. -/
theorem Valid.erase {cmp : Comparator T} (h : Valid cmp m t) (hc : cmp.Lawful) (v : T) :
    ∃ m' removed t', m.erase cmp v = some (m', removed) ∧ Valid cmp m' t' ∧ Keeps m m' ∧
      ((removed = false ∧ m' = m ∧ t' = t ∧ ∀ x ∈ t.inorder, cmp.equals v (m.value x) = false) ∨
        (removed = true ∧ ∃ z a b, cmp.equals v (m.value z) = true ∧ t.inorder = a ++ z :: b ∧
          t'.inorder = a ++ b)) := by
  obtain ⟨z, hfind, ⟨rfl, hnone⟩ | ⟨ctx, c, l, r, rfl, hequals⟩⟩ := h.find hc v
  · refine ⟨m, false, t, ?_, h, .refl m, .inl ⟨rfl, rfl, rfl, hnone⟩⟩
    rw [Tree.erase, hfind]
    exact if_pos rfl
  · obtain ⟨m₁, ctx', c', t₁, hunlink, hkeeps, hlacking, hrules, a, b, hbefore, hafter⟩ :=
      h.toRepresents.unlink
    have hznil : z ≠ m.nil := h.toRepresents.node.2.1
    obtain ⟨d, x, hcolors⟩ := hrules h.rules
    have hsorted := h.sorted
    rw [hbefore] at hsorted
    have hsorted' : (a ++ b).Pairwise (Before cmp m) :=
      hsorted.sublist ((sublist_cons_self z b).append_left a)
    have hvalid : ∀ {m' t'}, Keeps m m' → Represents m' t' → t'.ColorRules →
        t'.inorder = a ++ b → Valid cmp m' t' := fun hkeeps hrep hcolors hinorder =>
      ⟨hrep, hcolors, by
        rw [hinorder]
        exact pairwise_before_congr (fun w _ => congrFun hkeeps.value w) hsorted'⟩
    cases c' with
    | red =>
      refine ⟨m₁, true, plug ctx' t₁, ?_,
        hvalid hkeeps hlacking.toRepresents (ColorRules.without_red hcolors)
        hafter, hkeeps, .inr ⟨rfl, z, a, b, hequals, hbefore, hafter⟩⟩
      simp only [Tree.erase, hfind, bind, Option.bind, hznil, if_false, hunlink, reduceCtorEq]
    | black =>
      obtain ⟨n, haccepts, hbalanced, hred⟩ := ColorRules.without_black hcolors
      obtain ⟨t', hrepair, hrules'⟩ := exists_eraseRepair haccepts hbalanced hred
      obtain ⟨m', hfix, hkeeps', hrep⟩ := fixDelete_repair hrepair hlacking
      have hinorder := hrepair.inorder_eq.trans hafter
      refine ⟨m', true, t', ?_, hvalid (hkeeps.trans hkeeps') hrep hrules' hinorder,
        hkeeps.trans hkeeps', .inr ⟨rfl, z, a, b, hequals, hbefore, hinorder⟩⟩
      simp only [Tree.erase, hfind, bind, Option.bind, hznil, if_false, hunlink, if_true, hfix]

end Equilibrium.RedBlackTree2
