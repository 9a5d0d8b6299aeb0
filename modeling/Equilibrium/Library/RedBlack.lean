import Mathlib.Tactic.Common
import Mathlib.Data.List.Pairwise
import Mathlib.Data.List.Nodup

/-! Red-black trees and their contexts, over arbitrary entries.
A context is the list of frames from a hole up to the root. Left and right are a
parameter, so a rotation and a repair are stated once for both sides. -/

namespace Equilibrium.Library.RedBlack

inductive Color where
  | red
  | black
  deriving DecidableEq

def Color.weight : Color → ℕ
  | .red => 0
  | .black => 1

inductive Side where
  | left
  | right
  deriving DecidableEq

def Side.other : Side → Side
  | .left => .right
  | .right => .left

@[simp] theorem Side.other_other (d : Side) : d.other.other = d := by cases d <;> rfl

@[simp] theorem Side.other_ne (d : Side) : d.other ≠ d := by cases d <;> decide

theorem Side.eq_or_eq_other (d e : Side) : e = d ∨ e = d.other := by
  cases d <;> cases e <;> decide

inductive RBTree (α : Type) where
  | leaf
  | node (color : Color) (left : RBTree α) (entry : α) (right : RBTree α)

namespace RBTree

variable {α : Type}

/-- A node given by its children on side `d` and on the other side. -/
def on (d : Side) (c : Color) (near : RBTree α) (e : α) (far : RBTree α) : RBTree α :=
  match d with
  | .left => node c near e far
  | .right => node c far e near

@[simp] theorem on_other (d : Side) (c : Color) (s : RBTree α) (e : α) (t : RBTree α) :
    on d.other c s e t = on d c t e s := by cases d <;> rfl

theorem on_left (c : Color) (s : RBTree α) (e : α) (t : RBTree α) :
    on .left c s e t = node c s e t := rfl

theorem exists_on (d : Side) (c : Color) (l : RBTree α) (e : α) (r : RBTree α) :
    ∃ near far, node c l e r = on d c near e far := by
  cases d with
  | left => exact ⟨l, r, rfl⟩
  | right => exact ⟨r, l, rfl⟩

def rootColor : RBTree α → Color
  | leaf => .black
  | node c _ _ _ => c

@[simp] theorem rootColor_leaf : (leaf : RBTree α).rootColor = .black := rfl

@[simp] theorem rootColor_node (c : Color) (l : RBTree α) (e : α) (r : RBTree α) :
    (node c l e r).rootColor = c := rfl

@[simp] theorem rootColor_on (d : Side) (c : Color) (s : RBTree α) (e : α) (t : RBTree α) :
    (on d c s e t).rootColor = c := by cases d <;> rfl

variable {t : RBTree α}

theorem exists_on_of_red (d : Side) (h : t.rootColor = .red) :
    ∃ near e far, t = on d .red near e far := by
  cases t with
  | leaf => simp at h
  | node c l e r =>
    obtain rfl : c = .red := h
    obtain ⟨near, far, heq⟩ := exists_on d .red l e r
    exact ⟨near, e, far, heq⟩

def blacken : RBTree α → RBTree α
  | leaf => leaf
  | node _ l e r => node .black l e r

@[simp] theorem blacken_on (d : Side) (c : Color) (s : RBTree α) (e : α) (t : RBTree α) :
    (on d c s e t).blacken = on d .black s e t := by cases d <;> rfl

@[simp] theorem rootColor_blacken (t : RBTree α) : t.blacken.rootColor = .black := by
  cases t <;> rfl

theorem blacken_of_black (h : t.rootColor = .black) : t.blacken = t := by
  cases t with
  | leaf => rfl
  | node c l e r =>
    obtain rfl : c = .black := h
    rfl

/-! The entries in order. -/

def inorder : RBTree α → List α
  | leaf => []
  | node _ l e r => l.inorder ++ e :: r.inorder

/-- The entries met when walking away from side `d`. -/
def along (d : Side) (t : RBTree α) : List α :=
  match d with
  | .left => t.inorder
  | .right => t.inorder.reverse

@[simp] theorem along_leaf (d : Side) : (leaf : RBTree α).along d = [] := by cases d <;> rfl

@[simp] theorem along_on (d : Side) (c : Color) (s : RBTree α) (e : α) (t : RBTree α) :
    (on d c s e t).along d = s.along d ++ e :: t.along d := by
  cases d <;> simp [on, along, inorder]

theorem along_other (d : Side) (t : RBTree α) : t.along d.other = (t.along d).reverse := by
  cases d <;> simp [along, Side.other]

variable {e : α}

@[simp] theorem mem_along (d : Side) : e ∈ t.along d ↔ e ∈ t.inorder := by
  cases d <;> simp [along]

variable {d : Side} {c : Color} {s : RBTree α}

theorem mem_inorder_on {x : α} :
    x ∈ (on d c s e t).inorder ↔ x = e ∨ x ∈ s.inorder ∨ x ∈ t.inorder := by
  cases d <;> (simp [on, inorder]; try tauto)

@[simp] theorem inorder_blacken (t : RBTree α) : t.blacken.inorder = t.inorder := by
  cases t <;> rfl

theorem inorder_on_congr {c' : Color} {s' t' : RBTree α} (hs : s.inorder = s'.inorder)
    (ht : t.inorder = t'.inorder) : (on d c s e t).inorder = (on d c' s' e t').inorder := by
  cases d <;> simp [on, inorder, hs, ht]

theorem inorder_rotate (d : Side) (c₁ c₂ c₃ c₄ : Color) (s t u : RBTree α) (x y : α) :
    (on d c₁ s x (on d c₂ t y u)).inorder = (on d c₃ (on d c₄ s x t) y u).inorder := by
  cases d <;> simp [on, inorder]

def Ordered (lt : α → α → Prop) : RBTree α → Prop
  | leaf => True
  | node _ l e r =>
    l.Ordered lt ∧ r.Ordered lt ∧ (∀ x ∈ l.inorder, lt x e) ∧ ∀ x ∈ r.inorder, lt e x

theorem ordered_iff {lt : α → α → Prop} (htrans : ∀ {x y z}, lt x y → lt y z → lt x z)
    {t : RBTree α} : t.Ordered lt ↔ t.inorder.Pairwise lt := by
  induction t with
  | leaf => simp [Ordered, inorder]
  | node c l e r ihl ihr =>
    simp only [Ordered, inorder, List.pairwise_append, List.pairwise_cons, List.mem_cons, ihl, ihr]
    constructor
    · rintro ⟨hl, hr, hle, her⟩
      refine ⟨hl, ⟨her, hr⟩, fun x hx y hy => ?_⟩
      rcases hy with rfl | hy
      · exact hle x hx
      · exact htrans (hle x hx) (her y hy)
    · rintro ⟨hl, ⟨her, hr⟩, hall⟩
      exact ⟨hl, hr, fun x hx => hall x hx e (.inl rfl), her⟩

/-! The color invariants. -/

def NoRedRed : RBTree α → Prop
  | leaf => True
  | node c l _ r =>
    (c = .red → l.rootColor = .black ∧ r.rootColor = .black) ∧ l.NoRedRed ∧ r.NoRedRed

theorem noRedRed_on : (on d c s e t).NoRedRed ↔
      (c = .red → s.rootColor = .black ∧ t.rootColor = .black) ∧ s.NoRedRed ∧ t.NoRedRed := by
  cases d <;> simp only [on, NoRedRed] <;> tauto

/-- Every path from the root to a leaf has `n` black nodes. -/
def Balanced : RBTree α → ℕ → Prop
  | leaf, n => n = 0
  | node c l _ r, n => ∃ m, l.Balanced m ∧ r.Balanced m ∧ n = m + c.weight

variable {n : ℕ}

@[simp] theorem balanced_leaf : (leaf : RBTree α).Balanced n ↔ n = 0 := Iff.rfl

theorem balanced_on :
    (on d c s e t).Balanced n ↔ ∃ m, s.Balanced m ∧ t.Balanced m ∧ n = m + c.weight := by
  cases d
  · rfl
  · exact ⟨fun ⟨m, ht, hs, h⟩ => ⟨m, hs, ht, h⟩, fun ⟨m, hs, ht, h⟩ => ⟨m, ht, hs, h⟩⟩

theorem balanced_red : (on d .red s e t).Balanced n ↔ s.Balanced n ∧ t.Balanced n := by
  rw [balanced_on]
  exact ⟨fun ⟨_, hs, ht, h⟩ => h ▸ ⟨hs, ht⟩, fun ⟨hs, ht⟩ => ⟨n, hs, ht, rfl⟩⟩

theorem balanced_black : (on d .black s e t).Balanced (n + 1) ↔ s.Balanced n ∧ t.Balanced n := by
  rw [balanced_on]
  constructor
  · rintro ⟨m, hs, ht, h⟩
    obtain rfl : n = m := Nat.succ.inj h
    exact ⟨hs, ht⟩
  · exact fun ⟨hs, ht⟩ => ⟨n, hs, ht, rfl⟩

theorem Balanced.exists_on (d : Side) {t : RBTree α} {n : ℕ} (h : t.Balanced (n + 1))
    (hc : t.rootColor = .black) : ∃ near e far, t = on d .black near e far := by
  cases t with
  | leaf => simp at h
  | node c l e r =>
    obtain rfl : c = .black := hc
    obtain ⟨near, far, heq⟩ := RBTree.exists_on d .black l e r
    exact ⟨near, e, far, heq⟩

/-- The color rules of a red-black tree. -/
structure ColorRules (t : RBTree α) : Prop where
  noRedRed : t.NoRedRed
  balanced : ∃ n, t.Balanced n
  root : t.rootColor = .black

theorem colorRules_leaf : (leaf : RBTree α).ColorRules := ⟨trivial, ⟨0, rfl⟩, rfl⟩

theorem NoRedRed.blacken (h : t.NoRedRed) : t.blacken.NoRedRed := by
  cases t with
  | leaf => trivial
  | node c l e r => exact ⟨fun hc => (nomatch hc), h.2⟩

theorem Balanced.blacken (h : t.Balanced n) : ∃ m, t.blacken.Balanced m := by
  cases t with
  | leaf => exact ⟨0, rfl⟩
  | node c l e r =>
    obtain ⟨m, hl, hr, _⟩ := h
    exact ⟨m + 1, m, hl, hr, rfl⟩

theorem colorRules_blacken (hn : t.blacken.NoRedRed) (hb : t.Balanced n) : t.blacken.ColorRules :=
  ⟨hn, hb.blacken, t.rootColor_blacken⟩

end RBTree

/-! Repair of the color rules along a context: after a red node is put into a hole,
and after a subtree in a hole lost one from its black count. -/

open List

structure Frame (α : Type) where
  side : Side
  color : Color
  entry : α
  sibling : RBTree α

variable {α : Type}

open RBTree

def Frame.fill (f : Frame α) (t : RBTree α) : RBTree α := on f.side f.color t f.entry f.sibling

def plug : List (Frame α) → RBTree α → RBTree α
  | [], t => t
  | f :: ctx, t => plug ctx (f.fill t)

@[simp] theorem plug_nil (t : RBTree α) : plug [] t = t := rfl

@[simp] theorem plug_cons (f : Frame α) (ctx : List (Frame α)) (t : RBTree α) :
    plug (f :: ctx) t = plug ctx (f.fill t) := rfl

theorem plug_append (lower upper : List (Frame α)) (t : RBTree α) :
    plug (lower ++ upper) t = plug upper (plug lower t) := by
  induction lower generalizing t with
  | nil => rfl
  | cons f lower ih => exact ih _

/-- The entries after the hole when walking away from side `d`. -/
def beyond (d : Side) : List (Frame α) → List α
  | [] => []
  | f :: ctx => if f.side = d then f.entry :: (f.sibling.along d ++ beyond d ctx) else beyond d ctx

@[simp] theorem beyond_nil (d : Side) : beyond d ([] : List (Frame α)) = [] := rfl

@[simp] theorem beyond_cons_self (d : Side) (c : Color) (e : α) (s : RBTree α)
    (ctx : List (Frame α)) :
    beyond d (⟨d, c, e, s⟩ :: ctx) = e :: (s.along d ++ beyond d ctx) := if_pos rfl

@[simp] theorem beyond_cons_other (d : Side) (c : Color) (e : α) (s : RBTree α)
    (ctx : List (Frame α)) : beyond d (⟨d.other, c, e, s⟩ :: ctx) = beyond d ctx :=
  if_neg d.other_ne

theorem along_plug (d : Side) (ctx : List (Frame α)) (t : RBTree α) :
    (plug ctx t).along d = (beyond d.other ctx).reverse ++ t.along d ++ beyond d ctx := by
  induction ctx generalizing t with
  | nil => simp
  | cons f ctx ih =>
    obtain ⟨e, c, x, s⟩ := f
    rw [plug_cons, ih, Frame.fill]
    rcases d.eq_or_eq_other e with rfl | rfl
    · have hother := beyond_cons_other e.other c x s ctx
      rw [Side.other_other] at hother
      rw [along_on, hother, beyond_cons_self]
      simp
    · rw [on_other, along_on, beyond_cons_self, beyond_cons_other, along_other]
      simp

theorem inorder_plug_congr (ctx : List (Frame α)) {t t' : RBTree α}
    (h : t.inorder = t'.inorder) : (plug ctx t).inorder = (plug ctx t').inorder := by
  have := along_plug .left ctx t
  have := along_plug .left ctx t'
  simp_all [along]

def contextEntries : List (Frame α) → List α
  | [] => []
  | f :: ctx => f.entry :: (f.sibling.inorder ++ contextEntries ctx)

theorem inorder_on_perm (d : Side) (c : Color) (s : RBTree α) (e : α) (t : RBTree α) :
    (on d c s e t).inorder.Perm (s.inorder ++ e :: t.inorder) := by
  cases d with
  | left => exact List.Perm.refl _
  | right =>
    refine perm_middle.trans ?_
    rw [← cons_append]
    exact perm_append_comm

theorem inorder_plug_perm (ctx : List (Frame α)) (t : RBTree α) :
    (plug ctx t).inorder.Perm (t.inorder ++ contextEntries ctx) := by
  induction ctx generalizing t with
  | nil => rw [plug_nil, contextEntries, append_nil]
  | cons f ctx ih =>
    refine (ih (f.fill t)).trans ?_
    refine ((inorder_on_perm f.side f.color t f.entry f.sibling).append_right _).trans ?_
    rw [contextEntries, append_assoc, cons_append]

variable {x : α}

theorem mem_inorder_plug {ctx : List (Frame α)} {t : RBTree α} :
    x ∈ (plug ctx t).inorder ↔ x ∈ t.inorder ∨ x ∈ contextEntries ctx := by
  rw [(inorder_plug_perm ctx t).mem_iff, mem_append]

variable {d : Side}

theorem nodup_inorder_on {c : Color} {s t : RBTree α} {e : α} :
    (on d c s e t).inorder.Nodup ↔ e ∉ s.inorder ∧ e ∉ t.inorder ∧ s.inorder.Nodup ∧
      t.inorder.Nodup ∧ s.inorder.Disjoint t.inorder := by
  rw [(inorder_on_perm d c s e t).nodup_iff, nodup_append', nodup_cons,
    disjoint_cons_right]
  tauto

theorem nodup_inorder_plug {ctx : List (Frame α)} {t : RBTree α} :
    (plug ctx t).inorder.Nodup ↔ t.inorder.Nodup ∧ (contextEntries ctx).Nodup ∧
      t.inorder.Disjoint (contextEntries ctx) := by
  rw [(inorder_plug_perm ctx t).nodup_iff, nodup_append']

def AllowsRed : List (Frame α) → Prop
  | [] => False
  | f :: _ => f.color = .black

/-- The color rules of a context whose hole takes a tree of black count `n`. -/
def Accepts : List (Frame α) → ℕ → Prop
  | [], _ => True
  | f :: ctx, n =>
    f.sibling.Balanced n ∧ f.sibling.NoRedRed ∧
      (f.color = .red → f.sibling.rootColor = .black ∧ AllowsRed ctx) ∧
      Accepts ctx (n + f.color.weight)

variable {n : ℕ}

theorem colorRules_plug {ctx : List (Frame α)} {t : RBTree α} (hctx : Accepts ctx n)
    (hbal : t.Balanced n) (hred : t.NoRedRed) (hroot : t.rootColor = .red → AllowsRed ctx) :
    (plug ctx t).ColorRules := by
  induction ctx generalizing n t with
  | nil =>
    refine ⟨hred, ⟨n, hbal⟩, ?_⟩
    cases hc : t.rootColor with
    | red => exact (hroot hc).elim
    | black => exact hc
  | cons f ctx ih =>
    obtain ⟨hs, hsred, hf, hrest⟩ := hctx
    refine ih hrest (balanced_on.mpr ⟨n, hbal, hs, rfl⟩) (noRedRed_on.mpr ⟨?_, hred, hsred⟩) ?_
    · intro hc
      refine ⟨?_, (hf hc).1⟩
      cases hcol : t.rootColor with
      | red => exact absurd (hroot hcol) (by simp [AllowsRed, hc])
      | black => rfl
    · intro hc
      exact (hf (by simpa [Frame.fill] using hc)).2

theorem ColorRules.split {ctx : List (Frame α)} {t : RBTree α} (h : (plug ctx t).ColorRules) :
    ∃ n, Accepts ctx n ∧ t.Balanced n ∧ t.NoRedRed ∧ (t.rootColor = .red → AllowsRed ctx) := by
  induction ctx generalizing t with
  | nil =>
    obtain ⟨n, hn⟩ := h.balanced
    exact ⟨n, trivial, hn, h.noRedRed, fun hc => absurd (hc.symm.trans h.root) (by decide)⟩
  | cons f ctx ih =>
    obtain ⟨n, hctx, hbal, hred, hroot⟩ := ih h
    obtain ⟨m, ht, hs, rfl⟩ := balanced_on.mp hbal
    obtain ⟨hcolor, htred, hsred⟩ := noRedRed_on.mp hred
    refine ⟨m, ⟨hs, hsred, fun hc => ⟨(hcolor hc).2, ?_⟩, hctx⟩, ht, htred, fun hc => ?_⟩
    · exact hroot (by simpa [Frame.fill] using hc)
    · cases hf : f.color with
      | red => exact absurd (hc.symm.trans (hcolor hf).1) (by decide)
      | black => exact hf

theorem ColorRules.rename {c : Color} {s t : RBTree α} {ctx : List (Frame α)}
    (h : (plug ctx (on d c s x t)).ColorRules) (y : α) : (plug ctx (on d c s y t)).ColorRules := by
  obtain ⟨n, hctx, hbal, hred, hroot⟩ := ColorRules.split h
  refine colorRules_plug hctx (balanced_on.mpr (balanced_on.mp hbal))
    (noRedRed_on.mpr (noRedRed_on.mp hred)) fun hc => hroot ?_
  rwa [rootColor_on] at hc ⊢

theorem ColorRules.without_red {t : RBTree α} {ctx : List (Frame α)}
    (h : (plug ctx (on d .red .leaf x t)).ColorRules) : (plug ctx t).ColorRules := by
  obtain ⟨n, hctx, hbal, hred, -⟩ := ColorRules.split h
  obtain ⟨hblack, -, htred⟩ := noRedRed_on.mp hred
  refine colorRules_plug hctx (balanced_red.mp hbal).2 htred fun hc => ?_
  exact absurd (hc.symm.trans (hblack rfl).2) nofun

theorem ColorRules.without_black {t : RBTree α} {ctx : List (Frame α)}
    (h : (plug ctx (on d .black .leaf x t)).ColorRules) :
    ∃ n, Accepts ctx (n + 1) ∧ t.Balanced n ∧ t.blacken.NoRedRed := by
  obtain ⟨n, hctx, hbal, hred, -⟩ := ColorRules.split h
  obtain ⟨n, -, ht, rfl⟩ := balanced_on.mp hbal
  exact ⟨n, hctx, ht, (noRedRed_on.mp hred).2.2.blacken⟩

/-! A red node in the hole. -/

/-- From a red tree in the hole of a context to the repaired whole tree. -/
inductive InsertRepair : List (Frame α) → RBTree α → RBTree α → Prop
  | root {t} : InsertRepair [] t t.blacken
  | black {f : Frame α} {ctx t} (hf : f.color = .black) :
      InsertRepair (f :: ctx) t (plug (f :: ctx) t).blacken
  | uncle {e d : Side} {p g : α} {c : Color} {s u t t' : RBTree α} {ctx : List (Frame α)}
      (hu : u.rootColor = .red)
      (h : InsertRepair ctx (on d .red (on e .black t p s) g u.blacken) t') :
      InsertRepair (⟨e, .red, p, s⟩ :: ⟨d, c, g, u⟩ :: ctx) t t'
  | inner {d : Side} {p g x : α} {c : Color} {s u a b : RBTree α} {ctx : List (Frame α)}
      (hu : u.rootColor = .black) :
      InsertRepair (⟨d.other, .red, p, s⟩ :: ⟨d, c, g, u⟩ :: ctx) (on d .red a x b)
        (plug ctx (on d .black (on d .red s p a) x (on d .red b g u))).blacken
  | outer {d : Side} {p g : α} {c : Color} {s u t : RBTree α} {ctx : List (Frame α)}
      (hu : u.rootColor = .black) :
      InsertRepair (⟨d, .red, p, s⟩ :: ⟨d, c, g, u⟩ :: ctx) t
        (plug ctx (on d .black t p (on d .red s g u))).blacken

theorem InsertRepair.inorder_eq {ctx : List (Frame α)} {t t' : RBTree α}
    (h : InsertRepair ctx t t') : t'.inorder = (plug ctx t).inorder := by
  induction h with
  | root => exact inorder_blacken _
  | black _ => exact inorder_blacken _
  | uncle _ _ ih =>
    rw [ih]
    exact inorder_plug_congr _ (inorder_on_congr (inorder_on_congr rfl rfl) (inorder_blacken _))
  | @inner d p g x c s u a b ctx _ =>
    rw [inorder_blacken]
    refine inorder_plug_congr _ ?_
    cases d <;> simp [Frame.fill, on, inorder, Side.other]
  | @outer d p g c s u t ctx _ =>
    rw [inorder_blacken]
    refine inorder_plug_congr _ ?_
    cases d <;> simp [Frame.fill, on, inorder]

theorem exists_insertRepair : ∀ {ctx : List (Frame α)} {n : ℕ} {t : RBTree α}, Accepts ctx n →
    t.Balanced n → t.NoRedRed → t.rootColor = .red →
    ∃ t', InsertRepair ctx t t' ∧ t'.ColorRules
  | [], _, _, _, hbal, hred, _ => ⟨_, .root, colorRules_blacken hred.blacken hbal⟩
  | [f], n, t, hctx, hbal, hred, _ => by
    cases hf : f.color with
    | red => exact (hctx.2.2.1 hf).2.elim
    | black =>
      have hrules := colorRules_plug hctx hbal hred fun _ => hf
      exact ⟨_, .black hf, by rwa [blacken_of_black hrules.root]⟩
  | f :: g :: ctx, n, t, hctx, hbal, hred, hroot => by
    cases hf : f.color with
    | black =>
      have hrules := colorRules_plug hctx hbal hred fun _ => hf
      exact ⟨_, .black hf, by rwa [blacken_of_black hrules.root]⟩
    | red =>
      obtain ⟨hs, hsred, hfred, hu, hured, -, hrest⟩ := hctx
      obtain ⟨hsblack, hg⟩ := hfred hf
      obtain ⟨e, fc, p, s⟩ := f
      obtain ⟨d, gc, x, u⟩ := g
      obtain rfl : fc = .red := hf
      obtain rfl : gc = .black := hg
      cases huc : u.rootColor with
      | red =>
        obtain ⟨u₁, y, u₂, rfl⟩ := exists_on_of_red d huc
        obtain ⟨hu₁, hu₂⟩ := balanced_red.mp hu
        obtain ⟨-, hu₁red, hu₂red⟩ := noRedRed_on.mp hured
        have hfill : (on e .black t p s).Balanced (n + 1) := balanced_black.mpr ⟨hbal, hs⟩
        have hurest : (on d .black u₁ y u₂).Balanced (n + 1) := balanced_black.mpr ⟨hu₁, hu₂⟩
        obtain ⟨t', hrepair, hrules⟩ := exists_insertRepair hrest
          (balanced_red.mpr ⟨hfill, hurest⟩)
          (by simp [noRedRed_on, hred, hsred, hu₁red, hu₂red]) (by simp)
        exact ⟨t', .uncle huc (by simpa using hrepair), hrules⟩
      | black =>
        have hrest' : Accepts ctx (n + 1) := hrest
        rcases d.eq_or_eq_other e with rfl | rfl
        · have hrules := colorRules_plug (t := on e .black t p (on e .red s x u)) hrest'
            (balanced_black.mpr ⟨hbal, balanced_red.mpr ⟨hs, hu⟩⟩)
            (by simp [noRedRed_on, hred, hsred, hured, hsblack, huc]) (by simp)
          exact ⟨_, .outer huc, by rwa [blacken_of_black hrules.root]⟩
        · obtain ⟨a, y, b, rfl⟩ := exists_on_of_red d hroot
          obtain ⟨ha, hb⟩ := balanced_red.mp hbal
          obtain ⟨hab, hared, hbred⟩ := noRedRed_on.mp hred
          have hrules := colorRules_plug
            (t := on d .black (on d .red s p a) y (on d .red b x u)) hrest'
            (balanced_black.mpr ⟨balanced_red.mpr ⟨hs, ha⟩, balanced_red.mpr ⟨hb, hu⟩⟩)
            (by simp [noRedRed_on, hared, hbred, hsred, hured, hsblack, huc, hab rfl]) (by simp)
          exact ⟨_, .inner huc, by rwa [blacken_of_black hrules.root]⟩

/-! A tree that lost one from its black count in the hole. -/

/-- From a tree that lacks one black in the hole of a context to the repaired whole tree. -/
inductive EraseRepair : List (Frame α) → RBTree α → RBTree α → Prop
  | root {t} : EraseRepair [] t t.blacken
  | red {f : Frame α} {ctx t} (ht : t.rootColor = .red) :
      EraseRepair (f :: ctx) t (plug (f :: ctx) t.blacken)
  | sibling {d : Side} {p w : α} {c : Color} {t t' u s : RBTree α} {ctx : List (Frame α)}
      (ht : t.rootColor = .black) (hu : u.rootColor = .black)
      (h : EraseRepair (⟨d, .red, p, u⟩ :: ⟨d, .black, w, s⟩ :: ctx) t t') :
      EraseRepair (⟨d, c, p, on d .red u w s⟩ :: ctx) t t'
  | children {d : Side} {p w : α} {c : Color} {t t' u s : RBTree α} {ctx : List (Frame α)}
      (ht : t.rootColor = .black) (hu : u.rootColor = .black) (hs : s.rootColor = .black)
      (h : EraseRepair ctx (on d c t p (on d .red u w s)) t') :
      EraseRepair (⟨d, c, p, on d .black u w s⟩ :: ctx) t t'
  | inner {d : Side} {p w y : α} {c : Color} {t a b s : RBTree α} {ctx : List (Frame α)}
      (ht : t.rootColor = .black) (hs : s.rootColor = .black) :
      EraseRepair (⟨d, c, p, on d .black (on d .red a y b) w s⟩ :: ctx) t
        (plug ctx (on d c (on d .black t p a) y (on d .black b w s))).blacken
  | outer {d : Side} {p w : α} {c : Color} {t u s : RBTree α} {ctx : List (Frame α)}
      (ht : t.rootColor = .black) (hs : s.rootColor = .red) :
      EraseRepair (⟨d, c, p, on d .black u w s⟩ :: ctx) t
        (plug ctx (on d c (on d .black t p u) w s.blacken)).blacken

theorem EraseRepair.inorder_eq {ctx : List (Frame α)} {t t' : RBTree α}
    (h : EraseRepair ctx t t') : t'.inorder = (plug ctx t).inorder := by
  induction h with
  | root => exact inorder_blacken _
  | red _ => exact inorder_plug_congr _ (inorder_blacken _)
  | @sibling d _ _ _ _ _ _ _ ctx _ _ _ ih =>
    rw [ih]
    refine inorder_plug_congr ctx ?_
    cases d <;> simp [Frame.fill, on, inorder]
  | children _ _ _ _ ih =>
    rw [ih]
    exact inorder_plug_congr _ (inorder_on_congr rfl (inorder_on_congr rfl rfl))
  | @inner d p w y c t a b s ctx _ _ =>
    rw [inorder_blacken]
    refine inorder_plug_congr _ ?_
    cases d <;> simp [Frame.fill, on, inorder]
  | @outer d p w c t u s ctx _ _ =>
    rw [inorder_blacken]
    refine inorder_plug_congr _ ?_
    cases d <;> simp [Frame.fill, on, inorder]

theorem exists_eraseRepair_black {d : Side} {p : α} {c : Color} {w t : RBTree α}
    {ctx : List (Frame α)} {n : ℕ} (hctx : Accepts (⟨d, c, p, w⟩ :: ctx) (n + 1))
    (hw : w.rootColor = .black) (hbal : t.Balanced n) (hred : t.NoRedRed)
    (ht : t.rootColor = .black)
    (hrec : ∀ t₁, t₁.Balanced (n + c.weight) → t₁.blacken.NoRedRed → t₁.rootColor = c →
      ∃ t', EraseRepair ctx t₁ t' ∧ t'.ColorRules) :
    ∃ t', EraseRepair (⟨d, c, p, w⟩ :: ctx) t t' ∧ t'.ColorRules := by
  obtain ⟨hwbal, hwred, hc, hrest⟩ := hctx
  obtain ⟨u, x, s, rfl⟩ := Balanced.exists_on d hwbal hw
  obtain ⟨hu, hs⟩ := balanced_black.mp hwbal
  obtain ⟨-, hured, hsred⟩ := noRedRed_on.mp hwred
  have hroot : ∀ {r : RBTree α}, r.rootColor = c → r.rootColor = .red → AllowsRed ctx :=
    fun hr hred => (hc (hr.symm.trans hred)).2
  cases hsc : s.rootColor with
  | red =>
    have hsb : s.blacken.Balanced (n + 1) := by
      obtain ⟨a, y, b, rfl⟩ := exists_on_of_red d hsc
      obtain ⟨ha, hb⟩ := balanced_red.mp hs
      rw [blacken_on]
      exact balanced_black.mpr ⟨ha, hb⟩
    have hrules := colorRules_plug (t := on d c (on d .black t p u) x s.blacken) hrest
      (balanced_on.mpr ⟨n + 1, balanced_black.mpr ⟨hbal, hu⟩, hsb, rfl⟩)
      (by simp [noRedRed_on, hred, hured, hsred.blacken]) (hroot (by simp))
    exact ⟨_, .outer ht hsc, by rwa [blacken_of_black hrules.root]⟩
  | black =>
    cases huc : u.rootColor with
    | red =>
      obtain ⟨a, y, b, rfl⟩ := exists_on_of_red d huc
      obtain ⟨ha, hb⟩ := balanced_red.mp hu
      obtain ⟨-, hared, hbred⟩ := noRedRed_on.mp hured
      have hrules := colorRules_plug
        (t := on d c (on d .black t p a) y (on d .black b x s)) hrest
        (balanced_on.mpr ⟨n + 1, balanced_black.mpr ⟨hbal, ha⟩, balanced_black.mpr ⟨hb, hs⟩, rfl⟩)
        (by simp [noRedRed_on, hred, hared, hbred, hsred]) (hroot (by simp))
      exact ⟨_, .inner ht hsc, by rwa [blacken_of_black hrules.root]⟩
    | black =>
      obtain ⟨t', hrepair, hrules⟩ := hrec (on d c t p (on d .red u x s))
        (balanced_on.mpr ⟨n, hbal, balanced_red.mpr ⟨hu, hs⟩, rfl⟩)
        (by simp [noRedRed_on, hred, hured, hsred, huc, hsc]) (by simp)
      exact ⟨t', .children ht huc hsc hrepair, hrules⟩

theorem eraseRepair_red {f : Frame α} {ctx : List (Frame α)} {t : RBTree α}
    (hctx : Accepts (f :: ctx) (n + 1)) (hbal : t.Balanced n) (hred : t.blacken.NoRedRed)
    (ht : t.rootColor = .red) : ∃ t', EraseRepair (f :: ctx) t t' ∧ t'.ColorRules := by
  refine ⟨_, .red ht, colorRules_plug hctx ?_ hred (by simp)⟩
  obtain ⟨a, y, b, rfl⟩ := exists_on_of_red .left ht
  obtain ⟨ha, hb⟩ := balanced_red.mp hbal
  rw [blacken_on]
  exact balanced_black.mpr ⟨ha, hb⟩

theorem exists_eraseRepair {ctx : List (Frame α)} {t : RBTree α} (hctx : Accepts ctx (n + 1))
    (hbal : t.Balanced n) (hred : t.blacken.NoRedRed) :
    ∃ t', EraseRepair ctx t t' ∧ t'.ColorRules := by
  induction ctx generalizing n t with
  | nil => exact ⟨_, .root, colorRules_blacken hred hbal⟩
  | cons f ctx ih =>
    cases ht : t.rootColor with
    | red => exact eraseRepair_red hctx hbal hred ht
    | black =>
      rw [blacken_of_black ht] at hred
      obtain ⟨d, c, p, w⟩ := f
      cases hw : w.rootColor with
      | black =>
        refine exists_eraseRepair_black hctx hw hbal hred ht fun t₁ hbal₁ hred₁ hroot₁ => ?_
        cases c with
        | black => exact ih hctx.2.2.2 hbal₁ hred₁
        | red =>
          cases ctx with
          | nil => exact ((hctx.2.2.1 rfl).2).elim
          | cons g ctx => exact eraseRepair_red hctx.2.2.2 hbal₁ hred₁ hroot₁
      | red =>
        obtain ⟨u, x, s, rfl⟩ := exists_on_of_red d hw
        obtain ⟨hwbal, hwred, hc, hrest⟩ := hctx
        obtain ⟨hu, hs⟩ := balanced_red.mp hwbal
        obtain ⟨hblack, hured, hsred⟩ := noRedRed_on.mp hwred
        obtain ⟨huc, hsc⟩ := hblack rfl
        have hcb : c = .black := by
          cases c with
          | black => rfl
          | red => exact absurd ((rootColor_on ..).symm.trans (hc rfl).1) nofun
        subst hcb
        have hctx' : Accepts (⟨d, .black, x, s⟩ :: ctx) (n + 1) := ⟨hs, hsred, nofun, hrest⟩
        have hctx₂ : Accepts (⟨d, .red, p, u⟩ :: ⟨d, .black, x, s⟩ :: ctx) (n + 1) :=
          ⟨hu, hured, fun _ => ⟨huc, rfl⟩, hctx'⟩
        obtain ⟨t', hrepair, hrules⟩ := exists_eraseRepair_black hctx₂ huc hbal hred ht
          fun t₁ hbal₁ hred₁ hroot₁ => eraseRepair_red hctx' hbal₁ hred₁ hroot₁
        exact ⟨t', .sibling ht huc hrepair, hrules⟩

end Equilibrium.Library.RedBlack
