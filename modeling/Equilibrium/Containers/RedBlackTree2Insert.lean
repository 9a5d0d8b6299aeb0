import Equilibrium.Containers.RedBlackTree2Shape

/-! Search and insertion: the repair of the memory follows the repair of the tree. -/

namespace Equilibrium.RedBlackTree2

open Library.RedBlack RBTree List Nat
open Function (update update_self update_of_ne)

variable {T : Type} {m m' : Tree T} {d e : Side} {x p g k : ℕ} {c : Color}
  {a b s t t' u : RBTree ℕ} {ctx : List (Frame ℕ)}

theorem Represents.node (h : Represents m (plug ctx (on d c s x t))) :
    hole m ctx = x ∧ x ≠ m.nil ∧ m.parent x = above m ctx ∧ m.color x = c ∧
      Shape m x (m.child d x) s ∧ Shape m x (m.child d.other x) t :=
  shape_on.mp h.split.2

theorem Represents.frame {f : Frame ℕ} (h : Represents m (plug (f :: ctx) t)) :
    hole m ctx = f.entry ∧ f.entry ≠ m.nil ∧ m.parent f.entry = above m ctx ∧
      m.color f.entry = f.color ∧ Shape m f.entry (hole m (f :: ctx)) t ∧
      Shape m f.entry (m.child f.side.other f.entry) f.sibling :=
  shape_on.mp (show Represents m (plug ctx (f.fill t)) from h).split.2

theorem fixInsertStep_uncle
    (h : Represents m (plug (⟨e, .red, p, s⟩ :: ⟨d, c, g, u⟩ :: ctx) t))
    (hk : m.parent k = p) (hu : u.rootColor = .red) :
    ∃ m', m.fixInsertStep d k = (m', g) ∧ Keeps m m' ∧
      Represents m' (plug ctx (on d .red (on e .black t p s) g u.blacken)) := by
  obtain ⟨u₁, y, u₂, rfl⟩ := exists_on_of_red d hu
  have hp := h.frame
  have hg := (show Represents m (plug (⟨d, c, g, _⟩ :: ctx) (on e .red t p s)) from h).frame
  have hparent : m.parent p = g := hp.2.2.1
  obtain ⟨hy, -⟩ := shape_on.mp hg.2.2.2.2.2
  have hcolor : m.color (m.child d.other g) = .red :=
    hg.2.2.2.2.2.color h.nil |>.trans (rootColor_on ..)
  have hstep : m.fixInsertStep d k =
      (((m.setColor y .black).setColor p .black).setColor g .red, g) := by
    simp only [Tree.fixInsertStep, hk, hparent, hcolor, if_true, Tree.setColor_parent]
    rw [show m.child d.other g = y from hy]
  refine ⟨_, hstep, (keeps_setColor _ _ _).trans ((keeps_setColor _ _ _).trans
    (keeps_setColor _ _ _)), ?_⟩
  have h₁ : Represents m (plug (⟨d.other, c, g, on e .red t p s⟩ :: ctx) (on d .red u₁ y u₂)) := by
    rw [plug_swap]
    exact h
  have h₂ := h₁.setColor .black
  rw [plug_swap] at h₂
  have h₃ : Represents _ (plug ctx (on d c (on e .black t p s) g (on d .black u₁ y u₂))) :=
    h₂.setColor .black
  rw [blacken_on]
  exact h₃.setColor .red

theorem fixInsertStep_outer (h : Represents m (plug (⟨d, .red, p, s⟩ :: ⟨d, c, g, u⟩ :: ctx) t))
    (hk : m.parent k = p) (hhole : hole m (⟨d, .red, p, s⟩ :: ⟨d, c, g, u⟩ :: ctx) = k)
    (ht : t ≠ .leaf) (hu : u.rootColor = .black) :
    ∃ m', m.fixInsertStep d k = (m', k) ∧ Keeps m m' ∧
      Represents m' (plug ctx (on d .black t p (on d .red s g u))) := by
  have hp := h.frame
  have hg := (show Represents m (plug (⟨d, c, g, _⟩ :: ctx) (on d .red t p s)) from h).frame
  have hparent : m.parent p = g := hp.2.2.1
  have hcolor : m.color (m.child d.other g) = .black := (hg.2.2.2.2.2.color h.nil).trans hu
  have hside : k ≠ m.child d.other p := by
    rw [← hhole]
    exact fun heq => Side.other_ne d ((h.side (.inl ht) d.other).mp heq).symm
  have hstep : m.fixInsertStep d k =
      (((m.setColor p .black).setColor g .red).rotate d.other g, k) := by
    simp only [Tree.fixInsertStep, hk, hparent, hcolor, reduceCtorEq, if_false, hside,
      Tree.setColor_parent]
  refine ⟨_, hstep, ((keeps_setColor _ _ _).trans (keeps_setColor _ _ _)).trans
    (keeps_rotate _ _ _).1, ?_⟩
  have h₁ : Represents (m.setColor p .black) (plug ctx (on d c (on d .black t p s) g u)) :=
    h.setColor .black
  have h₂ := h₁.setColor .red
  rw [← on_other d .red, ← on_other d .black] at h₂
  have h₃ := h₂.rotate
  rwa [on_other, on_other] at h₃

theorem fixInsertStep_inner
    (h : Represents m (plug (⟨d.other, .red, p, s⟩ :: ⟨d, c, g, u⟩ :: ctx) (on d .red a k b)))
    (hu : u.rootColor = .black) : ∃ m', m.fixInsertStep d k = (m', p) ∧ Keeps m m' ∧
      Represents m' (plug ctx (on d .black (on d .red s p a) k (on d .red b g u))) := by
  have hg := (show Represents m (plug (⟨d, c, g, _⟩ :: ctx) (on d.other .red (on d .red a k b) p s))
    from h).frame
  have hcolor : m.color (m.child d.other g) = .black := (hg.2.2.2.2.2.color h.nil).trans hu
  have h₀ : Represents m (plug (⟨d, c, g, u⟩ :: ctx) (on d .red s p (on d .red a k b))) := by
    rw [← on_other d .red (on d .red a k b) p s]
    exact h
  have hp := h₀.node
  have hkp : m.parent k = p := (shape_on.mp hp.2.2.2.2.2).2.2.1
  have hside : m.child d.other p = k := (shape_on.mp hp.2.2.2.2.2).1
  have hpg : m.parent p = g := hp.2.2.1
  have h₁ := h₀.rotate
  have hk := h₁.node
  have hpk : (m.rotate d p).parent p = k := (shape_on.mp hk.2.2.2.2.1).2.2.1
  have hkg : (m.rotate d p).parent k = g := hk.2.2.1
  have hstep : m.fixInsertStep d k =
      ((((m.rotate d p).setColor k .black).setColor g .red).rotate d.other g, p) := by
    simp only [Tree.fixInsertStep, hkp, hpg, hcolor, reduceCtorEq, if_false, hside, if_true,
      Tree.setColor_parent, hpk, hkg]
  refine ⟨_, hstep, (keeps_rotate _ _ _).1.trans (((keeps_setColor _ _ _).trans
    (keeps_setColor _ _ _)).trans (keeps_rotate _ _ _).1), ?_⟩
  have h₂ : Represents _ (plug ctx (on d c (on d .black (on d .red s p a) k b) g u)) :=
    h₁.setColor .black
  have h₃ := h₂.setColor .red
  rw [← on_other d .red, ← on_other d .black] at h₃
  have h₄ := h₃.rotate
  rwa [on_other, on_other] at h₄

theorem fixInsertLoop_stop (h : m.color (m.parent k) = .black) (rounds : ℕ) :
    Tree.fixInsertLoop (rounds + 1) m k = some m := by
  rw [Tree.fixInsertLoop, if_neg (by rw [h]; exact nofun)]

theorem fixInsertLoop_step {f : Frame ℕ} (h : Represents m (plug (⟨e, .red, p, s⟩ :: f :: ctx) t))
    (hk : m.parent k = p) (rounds : ℕ) : Tree.fixInsertLoop (rounds + 1) m k =
      Tree.fixInsertLoop rounds (m.fixInsertStep f.side k).1 (m.fixInsertStep f.side k).2 := by
  have hp := h.frame
  have hcolor : m.color p = .red := hp.2.2.2.1
  have hparent : m.parent p = f.entry := hp.2.2.1
  have hhole : hole m (f :: ctx) = p := hp.1
  have hne : (⟨e, .red, p, s⟩ : Frame ℕ).fill t ≠ .leaf := by cases e <;> exact nofun
  have hside : p = m.child .left f.entry ↔ f.side = .left := by
    have := Represents.side (f := f) h
      (.inl hne) .left
    rwa [hhole] at this
  rw [Tree.fixInsertLoop, hk, if_pos hcolor, hparent]
  cases hf : f.side with
  | left => rw [if_pos (hside.mpr hf)]
  | right => rw [if_neg (fun hleft => absurd (hf.symm.trans (hside.mp hleft)) nofun)]

/-- A red node in the hole: the loop makes the repair that the rules ask for. -/
theorem fixInsertLoop_repair (hr : InsertRepair ctx t t') (ht : t.rootColor = .red) {rounds : ℕ}
    (h : Represents m (plug ctx t)) (hrounds : ctx.length < rounds) :
    ∃ m', Tree.fixInsertLoop rounds m (hole m ctx) = some m' ∧ Keeps m m' ∧
      Represents (m'.setColor m'.root .black) t' := by
  induction hr generalizing m rounds with
  | @root t =>
    obtain ⟨a, k, b, rfl⟩ := exists_on_of_red .left ht
    obtain _ | rounds := rounds
    · omega
    obtain ⟨hk, -, hparent, -⟩ := h.node
    have hblack : m.color (m.parent (hole m [])) = .black := by
      rw [hk, hparent]
      exact h.nil
    exact ⟨m, fixInsertLoop_stop hblack rounds, .refl m, h.root_blacken⟩
  | @black f ctx t hf =>
    obtain ⟨a, k, b, rfl⟩ := exists_on_of_red .left ht
    obtain _ | rounds := rounds
    · omega
    obtain ⟨hk, -, hparent, -⟩ := h.node
    have hblack : m.color (m.parent (hole m (f :: ctx))) = .black := by
      rw [hk, hparent]
      exact h.frame.2.2.2.1.trans hf
    exact ⟨m, fixInsertLoop_stop hblack rounds, .refl m, h.root_blacken⟩
  | @uncle e d p g c s u t t' ctx hu hrest ih =>
    obtain ⟨a, k, b, rfl⟩ := exists_on_of_red .left ht
    obtain _ | rounds := rounds
    · omega
    obtain ⟨hk, -, hparent, -⟩ := h.node
    obtain ⟨m₁, hstep, hkeeps, h₁⟩ := fixInsertStep_uncle h hparent hu
    obtain ⟨hhole, -⟩ := h₁.node
    simp only [length_cons] at hrounds
    obtain ⟨m₂, hloop, hkeeps', h₂⟩ := ih (rootColor_on ..) h₁ (by omega : ctx.length < rounds)
    refine ⟨m₂, ?_, hkeeps.trans hkeeps', h₂⟩
    rw [hk, fixInsertLoop_step h hparent, hstep]
    rw [hhole] at hloop
    exact hloop
  | @inner d p g k c s u a b ctx hu =>
    obtain ⟨hk, -, hparent, -⟩ := h.node
    obtain ⟨m₁, hstep, hkeeps, h₁⟩ := fixInsertStep_inner h hu
    simp only [length_cons] at hrounds
    obtain ⟨rounds, rfl⟩ := Nat.exists_eq_add_of_lt (by omega : 1 < rounds)
    obtain ⟨-, -, -, hcolor, hp, -⟩ := h₁.node
    have hparent' : m₁.parent p = k := (shape_on.mp hp).2.2.1
    have hblack : m₁.color (m₁.parent p) = .black := by rw [hparent', hcolor]
    refine ⟨m₁, ?_, hkeeps, h₁.root_blacken⟩
    rw [hk, show 1 + rounds + 1 = rounds + 1 + 1 by omega, fixInsertLoop_step h hparent, hstep]
    exact fixInsertLoop_stop hblack rounds
  | @outer d p g c s u t ctx hu =>
    obtain ⟨a, k, b, rfl⟩ := exists_on_of_red .left ht
    obtain ⟨hk, -, hparent, -⟩ := h.node
    obtain ⟨m₁, hstep, hkeeps, h₁⟩ := fixInsertStep_outer h hparent hk nofun hu
    simp only [length_cons] at hrounds
    obtain ⟨rounds, rfl⟩ := Nat.exists_eq_add_of_lt (by omega : 1 < rounds)
    obtain ⟨-, -, -, hcolor, hp, -⟩ := h₁.node
    have hparent' : m₁.parent k = p := (shape_on.mp hp).2.2.1
    have hblack : m₁.color (m₁.parent k) = .black := by rw [hparent', hcolor]
    refine ⟨m₁, ?_, hkeeps, h₁.root_blacken⟩
    rw [hk, show 1 + rounds + 1 = rounds + 1 + 1 by omega, fixInsertLoop_step h hparent, hstep]
    exact fixInsertLoop_stop hblack rounds

theorem fixInsert_repair (hr : InsertRepair ctx t t') (ht : t.rootColor = .red)
    (h : Represents m (plug ctx t)) :
    ∃ m', m.fixInsert (hole m ctx) = some m' ∧ Keeps m m' ∧ Represents m' t' := by
  have hdepth := h.depth_le
  have hrounds : ctx.length < m.allocated + 1 := by omega
  obtain ⟨m', hloop, hkeeps, h'⟩ := fixInsertLoop_repair hr ht h hrounds
  refine ⟨m'.setColor m'.root .black, ?_, hkeeps.trans (keeps_setColor _ _ _), h'⟩
  rw [Tree.fixInsert, hloop]
  rfl

/-! The order of the values. -/

/-- A strict order with the equality that goes with it. -/
structure Comparator.Lawful (c : Comparator T) : Prop where
  irrefl : ∀ a, c.lessThan a a = false
  trans : ∀ {a b d}, c.lessThan a b = true → c.lessThan b d = true → c.lessThan a d = true
  equals : ∀ {a b}, c.equals a b = true ↔ c.lessThan a b = false ∧ c.lessThan b a = false

def Before (c : Comparator T) (m : Tree T) (x y : ℕ) : Prop :=
  c.lessThan (m.value x) (m.value y) = true

variable {cmp : Comparator T} {v : T} {rounds : ℕ}

theorem Comparator.Lawful.asymm (hc : cmp.Lawful) {a b : T} (h : cmp.lessThan a b = true) :
    cmp.lessThan b a = false := by
  cases hba : cmp.lessThan b a with
  | false => rfl
  | true => cases (hc.irrefl a).symm.trans (hc.trans h hba)

theorem Comparator.Lawful.compare (hc : cmp.Lawful) (a b : T) :
    cmp.lessThan a b = true ∨ cmp.equals a b = true ∨ cmp.lessThan b a = true := by
  cases hab : cmp.lessThan a b with
  | true => exact .inl rfl
  | false =>
    cases hba : cmp.lessThan b a with
    | true => exact .inr (.inr rfl)
    | false => exact .inr (.inl (hc.equals.mpr ⟨hab, hba⟩))

theorem Comparator.Lawful.not_equals (hc : cmp.Lawful) {a b : T}
    (h : cmp.lessThan a b = true ∨ cmp.lessThan b a = true) : cmp.equals a b = false := by
  cases heq : cmp.equals a b with
  | false => rfl
  | true =>
    obtain ⟨hab, hba⟩ := hc.equals.mp heq
    rcases h with h | h
    · cases hab.symm.trans h
    · cases hba.symm.trans h

/-- The entries in front of a hole are less than `v`, and those behind it are greater. -/
def Around (c : Comparator T) (m : Tree T) (v : T) (ctx : List (Frame ℕ)) : Prop :=
  (∀ x ∈ beyond .right ctx, c.lessThan (m.value x) v = true) ∧
    ∀ x ∈ beyond .left ctx, c.lessThan v (m.value x) = true

section Search

variable {col : Color} {l r : RBTree ℕ}

section

variable (hc : cmp.Lawful)
include hc

theorem Around.left (h : Around cmp m v ctx) (hx : cmp.lessThan v (m.value x) = true)
    (hr : ∀ y ∈ r.inorder, Before cmp m x y) : Around cmp m v (⟨.left, col, x, r⟩ :: ctx) := by
  refine ⟨fun y hy => h.1 y ?_, fun y hy => ?_⟩
  · rwa [show beyond .right (⟨.left, col, x, r⟩ :: ctx) = _ from beyond_cons_other .right ..] at hy
  rcases mem_cons.mp hy with rfl | hy
  · exact hx
  · rcases mem_append.mp hy with hy | hy
    · exact hc.trans hx (hr y ((mem_along .left).mp hy))
    · exact h.2 y hy

theorem Around.right (h : Around cmp m v ctx) (hx : cmp.lessThan (m.value x) v = true)
    (hl : ∀ y ∈ l.inorder, Before cmp m y x) : Around cmp m v (⟨.right, col, x, l⟩ :: ctx) := by
  refine ⟨fun y hy => ?_, fun y hy => h.2 y ?_⟩
  swap
  · rwa [show beyond .left (⟨.right, col, x, l⟩ :: ctx) = _ from beyond_cons_other .left ..] at hy
  rcases mem_cons.mp hy with rfl | hy
  · exact hx
  · rcases mem_append.mp hy with hy | hy
    · exact hc.trans (hl y ((mem_along .right).mp hy)) hx
    · exact h.1 y hy

theorem searchTree_eq (h : Represents m (plug ctx t)) (hord : t.Ordered (Before cmp m)) (v : T)
    (hrounds : t.inorder.length < rounds) : ∃ z, m.searchTree cmp v rounds (hole m ctx) = some z ∧
      ((z = m.nil ∧ ∀ x ∈ t.inorder, cmp.equals v (m.value x) = false) ∨
        ∃ ctx' col l r, plug ctx t = plug ctx' (on .left col l z r) ∧
          cmp.equals v (m.value z) = true) := by
  induction t generalizing ctx rounds with
  | leaf =>
    obtain _ | rounds := rounds
    · omega
    have hnil : hole m ctx = m.nil := h.split.2
    refine ⟨m.nil, ?_, .inl ⟨rfl, forall_mem_nil _⟩⟩
    rw [Tree.searchTree, hnil, if_pos (.inl rfl)]
  | node col l x r ihl ihr =>
    obtain _ | rounds := rounds
    · omega
    obtain ⟨hx, hne, -⟩ := (show Represents m (plug ctx (on .left col l x r)) from h).node
    obtain ⟨hlord, hrord, hl, hr⟩ := hord
    simp only [inorder, length_append, length_cons] at hrounds
    rw [Tree.searchTree, hx]
    cases heq : cmp.equals v (m.value x) with
    | true => exact ⟨x, if_pos (.inr rfl), .inr ⟨ctx, col, l, r, rfl, heq⟩⟩
    | false =>
      rw [if_neg (not_or.mpr ⟨hne, Bool.false_ne_true⟩)]
      cases hlt : cmp.lessThan v (m.value x) with
      | true =>
        rw [if_pos rfl]
        have hleft : Represents m (plug (⟨.left, col, x, r⟩ :: ctx) l) := h
        obtain ⟨z, hz, hcase⟩ := ihl hleft hlord (by omega : l.inorder.length < rounds)
        refine ⟨z, hz, hcase.imp (fun hnone => ⟨hnone.1, fun y hy => ?_⟩) id⟩
        rcases mem_append.mp hy with hy | hy
        · exact hnone.2 y hy
        · rcases mem_cons.mp hy with rfl | hy
          · exact heq
          · exact hc.not_equals (.inl (hc.trans hlt (hr y hy)))
      | false =>
        rw [if_neg Bool.false_ne_true]
        have hgt : cmp.lessThan (m.value x) v = true := by
          rcases hc.compare v (m.value x) with h | h | h
          · cases hlt.symm.trans h
          · cases heq.symm.trans h
          · exact h
        have hright : Represents m (plug (⟨.right, col, x, l⟩ :: ctx) r) := h
        obtain ⟨z, hz, hcase⟩ := ihr hright hrord (by omega : r.inorder.length < rounds)
        refine ⟨z, hz, hcase.imp (fun hnone => ⟨hnone.1, fun y hy => ?_⟩) id⟩
        rcases mem_append.mp hy with hy | hy
        · exact hc.not_equals (.inr (hc.trans (hl y hy) hgt))
        · rcases mem_cons.mp hy with rfl | hy
          · exact heq
          · exact hnone.2 y hy

theorem insertLoop_eq (h : Represents m (plug ctx t)) (hord : t.Ordered (Before cmp m))
    (hctx : Around cmp m v ctx) (hnone : ∀ x ∈ t.inorder, cmp.equals v (m.value x) = false)
    (hrounds : t.inorder.length < rounds) :
    ∃ ctx', plug ctx' .leaf = plug ctx t ∧ Around cmp m v ctx' ∧
      m.insertLoop cmp v rounds (above m ctx) (hole m ctx) = some (above m ctx') := by
  induction t generalizing ctx rounds with
  | leaf =>
    obtain _ | rounds := rounds
    · omega
    have hnil : hole m ctx = m.nil := h.split.2
    refine ⟨ctx, rfl, hctx, ?_⟩
    rw [Tree.insertLoop, hnil, if_pos rfl]
  | node col l x r ihl ihr =>
    obtain _ | rounds := rounds
    · omega
    obtain ⟨hx, hne, -⟩ := (show Represents m (plug ctx (on .left col l x r)) from h).node
    obtain ⟨hlord, hrord, hl, hr⟩ := hord
    simp only [inorder, length_append, length_cons] at hrounds
    rw [Tree.insertLoop, hx, if_neg hne]
    cases hlt : cmp.lessThan v (m.value x) with
    | true =>
      rw [if_pos rfl]
      have hleft : Represents m (plug (⟨.left, col, x, r⟩ :: ctx) l) := h
      exact ihl hleft hlord (hctx.left hc hlt hr) (fun y hy => hnone y (mem_append_left _ hy))
        (by omega)
    | false =>
      rw [if_neg Bool.false_ne_true]
      have hgt : cmp.lessThan (m.value x) v = true := by
        have hx := hnone x (mem_append_right _ mem_cons_self)
        rcases hc.compare v (m.value x) with h | h | h
        · cases hlt.symm.trans h
        · cases hx.symm.trans h
        · exact h
      have hright : Represents m (plug (⟨.right, col, x, l⟩ :: ctx) r) := h
      exact ihr hright hrord (hctx.right hc hgt hl)
        (fun y hy => hnone y (mem_append_right _ (mem_cons_of_mem x hy))) (by omega)

end

end Search

/-! The new node. -/

theorem Represents.newNode (h : Represents m t) (v : T) : Represents (m.newNode v) t := by
  have hsame : ∀ z ∈ t.inorder, SameNode m (m.newNode v) z := fun z hz =>
    have hne : z ≠ m.allocated := Nat.ne_of_lt (h.bounded z hz)
    ⟨update_of_ne hne _ _, fun _ => update_of_ne hne _ _, rfl⟩
  refine ⟨h.shape.congr rfl hsame, h.nodup, ?_, fun z hz => ?_, ?_⟩
  · exact (update_of_ne (Nat.ne_of_lt h.sentinel) _ _).trans h.nil
  · exact lt_succ_of_lt (h.bounded z hz)
  · exact lt_succ_of_lt h.sentinel

theorem Represents.attach {n : ℕ} (h : Represents m (plug ctx .leaf)) (hn : n ∉ contextEntries ctx)
    (hnil : n ≠ m.nil) (hlt : n < m.allocated) (hcolor : m.color n = .red)
    (hchild : ∀ d, m.child d n = m.nil) : Represents (setHole (m.setParent n (above m ctx)) ctx n)
      (plug ctx (on .left .red .leaf n .leaf)) := by
  obtain ⟨hfits, -⟩ := h.split
  obtain ⟨-, hctx, -⟩ := nodup_inorder_plug.mp h.nodup
  have htop : ∀ d, ¬ TopLink ctx d n := fun d hd => hn hd.mem
  have hne : ∀ z ∈ contextEntries ctx, z ≠ n := fun z hz => ne_of_mem_of_not_mem hz hn
  obtain ⟨hfits', habove⟩ : Fits (setHole (m.setParent n (above m ctx)) ctx n) ctx ∧
      above (setHole (m.setParent n (above m ctx)) ctx n) ctx = above m ctx := hfits.refill hctx
    (by simp) (fun hnil => (setHole_root hnil).trans rfl)
    (fun z hz => ⟨by simp, by simp [hne z hz]⟩) fun z hz d hd => setHole_child hd
  have hleaf : ∀ d, (setHole (m.setParent n (above m ctx)) ctx n).child d n = m.nil := fun d =>
    (setHole_child (htop d)).trans (hchild d)
  refine ⟨shape_plug.mpr ⟨hfits', shape_on.mpr ⟨hole_setHole, by simpa using hnil, ?_, ?_, ?_, ?_⟩⟩,
    ?_, ?_, fun z hz => ?_, ?_⟩
  · rw [habove]
    simp
  · simpa using hcolor
  · rw [hleaf]
    simp
  · rw [hleaf]
    simp
  · refine nodup_inorder_plug.mpr ⟨nodup_singleton n, hctx, ?_⟩
    exact singleton_disjoint.mpr hn
  · simpa using h.nil
  · rw [setHole_allocated]
    rcases mem_inorder_plug.mp hz with hz | hz
    · rw [mem_singleton.mp hz]
      exact hlt
    · exact h.bounded z (mem_inorder_plug.mpr (.inr hz))
  · simpa using h.sentinel

theorem attach_eq (hc : cmp.Lawful) (hctx : Around cmp m v ctx)
    (hne : ∀ f ∈ ctx.head?, f.entry ≠ m.nil) (n : ℕ) {y : ℕ} (hy : y = above m ctx) :
    (if y = m.nil then m.setRoot n
      else if cmp.lessThan v (m.value y) then m.setChild .left y n
      else m.setChild .right y n) = setHole m ctx n := by
  subst hy
  cases ctx with
  | nil => exact if_pos rfl
  | cons f ctx =>
    have hf := hne f rfl
    obtain ⟨d, col, x, s⟩ := f
    refine (if_neg hf).trans ?_
    cases d with
    | left =>
      have hlt := hctx.2 x (by rw [beyond_cons_self]; exact mem_cons_self)
      exact if_pos hlt
    | right =>
      have hlt := hctx.1 x (by rw [beyond_cons_self]; exact mem_cons_self)
      exact if_neg (by rw [above, hc.asymm hlt]; exact Bool.false_ne_true)

/-- A red-black search tree in the memory. -/
structure Valid (cmp : Comparator T) (m : Tree T) (t : RBTree ℕ) : Prop extends Represents m t where
  rules : t.ColorRules
  sorted : t.inorder.Pairwise (Before cmp m)

theorem ordered_iff_sorted (hc : cmp.Lawful) (m : Tree T) (t : RBTree ℕ) :
    t.Ordered (Before cmp m) ↔ t.inorder.Pairwise (Before cmp m) :=
  @ordered_iff ℕ (Before cmp m) (fun hxy hyz => hc.trans hxy hyz) t

theorem Valid.ordered (h : Valid cmp m t) (hc : cmp.Lawful) : t.Ordered (Before cmp m) :=
  (ordered_iff_sorted hc m t).mpr h.sorted

theorem Valid.find (h : Valid cmp m t) (hc : cmp.Lawful) (v : T) : ∃ z, m.find cmp v = some z ∧
      ((z = m.nil ∧ ∀ x ∈ t.inorder, cmp.equals v (m.value x) = false) ∨
        ∃ ctx col l r, t = plug ctx (on .left col l z r) ∧ cmp.equals v (m.value z) = true) := by
  have hrounds : t.inorder.length < m.allocated + 1 := lt_succ_of_le h.length_le
  have hplug : Represents m (plug [] t) := h.toRepresents
  exact searchTree_eq hc hplug (h.ordered hc) v hrounds

theorem pairwise_before_congr {l : List ℕ} (hvalue : ∀ x ∈ l, m'.value x = m.value x)
    (h : l.Pairwise (Before cmp m)) : l.Pairwise (Before cmp m') := by
  refine h.imp_of_mem fun {x y} hx hy hxy => ?_
  rw [Before, hvalue x hx, hvalue y hy]
  exact hxy

theorem inorder_plug (ctx : List (Frame ℕ)) (t : RBTree ℕ) :
    (plug ctx t).inorder = (beyond .right ctx).reverse ++ t.inorder ++ beyond .left ctx :=
  along_plug .left ctx t

theorem Valid.insertNew (h : Valid cmp m t) (hc : cmp.Lawful)
    (hnone : ∀ x ∈ t.inorder, cmp.equals v (m.value x) = false) : ∃ m' t', (do
        let node := m.allocated
        let m := m.newNode v
        let y ← m.insertLoop cmp (m.value node) (m.allocated + 1) m.nil m.root
        let m := m.setParent node y
        let m :=
          if y = m.nil then m.setRoot node
          else if cmp.lessThan (m.value node) (m.value y) then m.setChild .left y node
          else m.setChild .right y node
        let m ← m.fixInsert node
        some (m, node, true)) = some (m', m.allocated, true) ∧
      Valid cmp m' t' ∧ (m'.nil = m.nil ∧ m'.allocated = m.allocated + 1) ∧
      m'.value = update m.value m.allocated v ∧
      ∃ l r, t.inorder = l ++ r ∧ t'.inorder = l ++ m.allocated :: r := by
  have hnew : ∀ x ∈ t.inorder, (m.newNode v).value x = m.value x := fun x hx =>
    update_of_ne (Nat.ne_of_lt (h.bounded x hx)) _ _
  have hvalue : (m.newNode v).value m.allocated = v := update_self _ _ _
  have hnode : Represents (m.newNode v) (plug [] t) := h.toRepresents.newNode v
  have hsorted := pairwise_before_congr hnew h.sorted
  have hordered := (ordered_iff_sorted hc (m.newNode v) t).mpr hsorted
  have hrounds : t.inorder.length < (m.newNode v).allocated + 1 := by
    have hlen := h.length_le
    have hallocated : (m.newNode v).allocated = m.allocated + 1 := rfl
    omega
  obtain ⟨ctx, hplug, haround, hloop⟩ := insertLoop_eq hc hnode hordered
    ⟨forall_mem_nil _, forall_mem_nil _⟩
    (fun x hx => by rw [hnew x hx]; exact hnone x hx) hrounds
  rw [plug_nil] at hplug
  have hleaf : Represents (m.newNode v) (plug ctx .leaf) := by
    rw [hplug]
    exact hnode
  have hfresh : m.allocated ∉ contextEntries ctx := by
    intro hmem
    have hmem' : m.allocated ∈ t.inorder := hplug ▸ mem_inorder_plug.mpr (.inr hmem)
    exact absurd (h.bounded _ hmem') (Nat.lt_irrefl _)
  have hattached := hleaf.attach hfresh (Nat.ne_of_gt h.sentinel) (lt_succ_self _)
    (update_self _ _ _) fun d => update_self _ _ _
  have hcolors : (plug ctx .leaf).ColorRules := hplug ▸ h.rules
  obtain ⟨n, haccepts, hbalanced, -⟩ := ColorRules.split hcolors
  obtain ⟨t', hrepair, hrules⟩ := exists_insertRepair haccepts
    (t := on .left .red .leaf m.allocated .leaf) (balanced_red.mpr ⟨hbalanced, hbalanced⟩)
    (by simp [noRedRed_on, NoRedRed]) rfl
  obtain ⟨m', hfix, hkeeps, hrep⟩ := fixInsert_repair hrepair rfl hattached
  rw [hole_setHole] at hfix
  have hheads : ∀ f ∈ ctx.head?, f.entry ≠ ((m.newNode v).setParent m.allocated
      (above (m.newNode v) ctx)).nil := by
    intro f hf
    cases ctx with
    | nil => exact absurd hf (Option.not_mem_none f)
    | cons g ctx =>
      cases hf
      exact hleaf.frame.2.1
  have hlink := attach_eq (m := (m.newNode v).setParent m.allocated (above (m.newNode v) ctx)) hc
    haround hheads m.allocated (y := above (m.newNode v) ctx) rfl
  have hvalue' : m'.value = update m.value m.allocated v := by
    rw [hkeeps.value]
    exact setHole_value ..
  have hinorder : t'.inorder = (beyond .right ctx).reverse ++ m.allocated :: beyond .left ctx := by
    rw [hrepair.inorder_eq, inorder_plug, append_assoc]
    rfl
  have hbefore : t.inorder = (beyond .right ctx).reverse ++ beyond .left ctx := by
    rw [← hplug, inorder_plug, inorder, append_nil]
  refine ⟨m', t', ?_, ⟨hrep, hrules, ?_⟩, ⟨?_, ?_⟩, hvalue', _, _, hbefore, hinorder⟩
  · have hloop' : (m.newNode v).insertLoop cmp v ((m.newNode v).allocated + 1) (m.newNode v).nil
        (m.newNode v).root = some (above (m.newNode v) ctx) := hloop
    have hstored : ((m.newNode v).setParent m.allocated (above (m.newNode v) ctx)).value
        m.allocated = v := hvalue
    simp only [hvalue, hloop', hstored, bind, Option.bind, hlink, hfix]
  · have hsame : ∀ x, m'.value x = (m.newNode v).value x := fun x => congrFun hvalue' x
    have hsides := pairwise_before_congr (fun x _ => hsame x) hsorted
    rw [hbefore] at hsides
    obtain ⟨hleft, hright, hacross⟩ := pairwise_append.mp hsides
    rw [hinorder]
    refine pairwise_append.mpr ⟨hleft, pairwise_cons.mpr ⟨fun x hx => ?_, hright⟩, ?_⟩
    · rw [Before, hsame, hsame, hvalue]
      exact haround.2 x hx
    · intro x hx y hy
      rcases mem_cons.mp hy with rfl | hy
      · rw [Before, hsame, hsame, hvalue]
        exact haround.1 x (mem_reverse.mp hx)
      · exact hacross x hx y hy
  · rw [hkeeps.nil]
    exact setHole_nil ..
  · rw [hkeeps.allocated]
    exact setHole_allocated ..

theorem Valid.findOrInsert (h : Valid cmp m t) (hc : cmp.Lawful) (v : T) :
    ∃ m' z inserted t', m.findOrInsert cmp v = some (m', z, inserted) ∧ Valid cmp m' t' ∧
      m'.nil = m.nil ∧
      ((inserted = false ∧ m' = m ∧ t' = t ∧ z ∈ t.inorder ∧ cmp.equals v (m.value z) = true) ∨
        (inserted = true ∧ z = m.allocated ∧ m'.allocated = m.allocated + 1 ∧
          m'.value = update m.value z v ∧ (∀ x ∈ t.inorder, cmp.equals v (m.value x) = false) ∧
          ∃ l r, t.inorder = l ++ r ∧ t'.inorder = l ++ z :: r)) := by
  obtain ⟨z, hfind, hcase⟩ := h.find hc v
  rcases hcase with ⟨rfl, hnone⟩ | ⟨ctx, col, l, r, rfl, hequals⟩
  · obtain ⟨m', t', hinsert, hvalid, hkeeps, hvalue, hinorder⟩ := h.insertNew hc hnone
    refine ⟨m', m.allocated, true, t', ?_, hvalid, hkeeps.1, .inr ⟨rfl, rfl, hkeeps.2, hvalue,
      hnone, hinorder⟩⟩
    rw [Tree.findOrInsert, hfind]
    exact (if_neg (not_not.mpr rfl)).trans hinsert
  · have hmem : z ∈ (plug ctx (on .left col l z r)).inorder :=
      mem_inorder_plug.mpr (.inl (mem_inorder_on.mpr (.inl rfl)))
    refine ⟨m, z, false, _, ?_, h, rfl, .inl ⟨rfl, rfl, rfl, hmem, hequals⟩⟩
    rw [Tree.findOrInsert, hfind]
    exact if_pos (h.shape.ne_nil z hmem)

end Equilibrium.RedBlackTree2
