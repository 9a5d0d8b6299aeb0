import Equilibrium.Containers.RedBlackTree2Insert

/-! The walk: the outermost node of a subtree, and the next node on a side. -/

namespace Equilibrium.RedBlackTree2

open Library.RedBlack RBTree List

variable {T : Type} {m : Tree T} {d : Side} {x : ℕ} {c : Color} {s t : RBTree ℕ}
  {ctx : List (Frame ℕ)} {rounds : ℕ}

theorem beyond_other_of_side {lower : List (Frame ℕ)} (h : ∀ f ∈ lower, f.side = d) :
    beyond d.other lower = [] := by
  induction lower with
  | nil => rfl
  | cons f lower ih =>
    have hf := h f mem_cons_self
    rw [beyond, if_neg (by rw [hf]; exact (Side.other_ne d).symm)]
    exact ih fun g hg => h g (mem_cons_of_mem _ hg)

theorem Represents.descend (h : Represents m (plug ctx (on d c s x t)))
    (hrounds : s.inorder.length < rounds) :
    ∃ lower c' y r, on d c s x t = plug lower (on d c' .leaf y r) ∧ (∀ f ∈ lower, f.side = d) ∧
      m.descend d rounds x = some y := by
  induction rounds generalizing ctx c s x t with
  | zero => cases hrounds
  | succ rounds ih =>
    obtain ⟨-, -, -, -, hs, -⟩ := h.node
    cases hleaf : s with
    | leaf =>
      subst hleaf
      refine ⟨[], c, x, t, rfl, nofun, ?_⟩
      rw [Tree.descend, if_neg (not_not.mpr (shape_leaf.mp hs))]
    | node c₁ l₁ x₁ r₁ =>
      obtain ⟨near, far, hon⟩ := exists_on d c₁ l₁ x₁ r₁
      rw [hon] at hleaf
      subst hleaf
      have hlength := (inorder_on_perm d c₁ near x₁ far).length_eq
      rw [length_append, length_cons] at hlength
      have hdown : Represents m (plug (⟨d, c, x, t⟩ :: ctx) (on d c₁ near x₁ far)) := h
      obtain ⟨lower, c', y, r, heq, hside, hdescend⟩ :=
        ih hdown (by omega : near.inorder.length < rounds)
      obtain ⟨hx₁, hne, -⟩ := shape_on.mp hs
      refine ⟨lower ++ [⟨d, c, x, t⟩], c', y, r, ?_, ?_, ?_⟩
      · rw [plug_append, ← heq, hon]
        rfl
      · intro f hf
        rcases mem_append.mp hf with hf | hf
        · exact hside f hf
        · rw [mem_singleton.mp hf]
      · rw [Tree.descend, if_pos (by rw [hx₁]; exact hne), hx₁]
        exact hdescend

theorem Represents.climb (h : Represents m (plug ctx t)) (ht : t ≠ .leaf)
    (hrounds : ctx.length < rounds) : m.climb d rounds (hole m ctx) (above m ctx) =
      some ((beyond d.other ctx).head?.getD m.nil) := by
  induction ctx generalizing t rounds with
  | nil =>
    obtain _ | rounds := rounds
    · omega
    rw [Tree.climb, if_neg fun hup => hup.1 rfl]
    rfl
  | cons f ctx ih =>
    obtain _ | rounds := rounds
    · omega
    obtain ⟨hhole, hne, hparent, -⟩ := h.frame
    have hside := h.side (.inl ht) d
    rw [Tree.climb, above]
    by_cases hd : f.side = d
    · have hfill : f.fill t ≠ .leaf := by
        rw [Frame.fill]
        cases f.side <;> simp [on]
      have hup := ih h hfill (Nat.lt_of_succ_lt_succ hrounds)
      rw [if_pos ⟨hne, hside.mpr hd⟩, hparent, ← hhole, hup, beyond, if_neg]
      rw [hd]
      exact (Side.other_ne d).symm
    · have hother : f.side = d.other := (d.eq_or_eq_other f.side).resolve_left hd
      rw [if_neg fun hup => hd (hside.mp hup.2), beyond, if_pos hother]
      rfl

theorem Represents.neighbour (h : Represents m (plug ctx (on d c s x t))) :
    m.neighbour d x = some ((s.along d.other ++ beyond d.other ctx).head?.getD m.nil) := by
  obtain ⟨hhole, -, hparent, -, hs, -⟩ := h.node
  have hdepth := h.depth_le
  have hlength := (inorder_on_perm d c s x t).length_eq
  rw [length_append, length_cons] at hlength
  rw [Tree.neighbour]
  cases hleaf : s with
  | leaf =>
    subst hleaf
    have hclimb := h.climb (d := d) (by cases d <;> simp [on])
      (by omega : ctx.length < m.allocated + 1)
    rw [if_neg (not_not.mpr (shape_leaf.mp hs)), along_leaf, nil_append, hparent, ← hhole]
    exact hclimb
  | node c₁ l₁ x₁ r₁ =>
    obtain ⟨near, far, hon⟩ := exists_on d.other c₁ l₁ x₁ r₁
    rw [hon] at hleaf
    subst hleaf
    have hlength' := (inorder_on_perm d.other c₁ near x₁ far).length_eq
    rw [length_append, length_cons] at hlength'
    have hdown : Represents m (plug (⟨d, c, x, t⟩ :: ctx) (on d.other c₁ near x₁ far)) := h
    obtain ⟨lower, c', y, r, heq, hside, hdescend⟩ :=
      hdown.descend (by omega : near.inorder.length < m.allocated + 1)
    obtain ⟨hx₁, hne, -⟩ := shape_on.mp hs
    have hfirst : (on d.other c₁ near x₁ far).along d.other =
        y :: (r.along d.other ++ beyond d.other lower) := by
      rw [heq, along_plug, beyond_other_of_side hside, along_on, along_leaf]
      rfl
    rw [if_pos (by rw [hx₁]; exact hne), hx₁, hdescend, hon, hfirst]
    rfl

theorem exists_plug_of_mem (d : Side) (h : x ∈ t.inorder) :
    ∃ ctx c s u, t = plug ctx (on d c s x u) := by
  suffices hplug : ∀ ctx, ∃ ctx' c s u, plug ctx t = plug ctx' (on d c s x u) from hplug []
  induction t with
  | leaf => cases h
  | node c l y r ihl ihr =>
    intro ctx
    rcases mem_append.mp h with hl | hr
    · exact ihl hl (⟨.left, c, y, r⟩ :: ctx)
    · rcases mem_cons.mp hr with rfl | hr
      · obtain ⟨near, far, heq⟩ := exists_on d c l x r
        exact ⟨ctx, c, near, far, by rw [heq]⟩
      · exact ihr hr (⟨.right, c, y, l⟩ :: ctx)

section

variable (h : Represents m t)
include h

theorem Represents.neighbour_eq {l r : List ℕ} (hsplit : t.along d.other = l ++ x :: r) :
    m.neighbour d x = some (r.head?.getD m.nil) := by
  have hmem : x ∈ t.inorder := by
    rw [← mem_along d.other, hsplit]
    exact mem_append_right _ mem_cons_self
  have hnodup : (t.along d.other).Nodup := by
    cases d
    · exact nodup_reverse.mpr h.nodup
    · exact h.nodup
  obtain ⟨ctx, c, s, u, rfl⟩ := exists_plug_of_mem d hmem
  have halong : (plug ctx (on d c s x u)).along d.other =
      ((beyond d ctx).reverse ++ u.along d.other) ++
        x :: (s.along d.other ++ beyond d.other ctx) := by
    rw [along_plug, Side.other_other, show on d c s x u = on d.other c u x s from
      (on_other ..).symm, along_on, append_assoc, append_assoc, append_assoc,
      cons_append]
  rw [halong] at hsplit hnodup
  obtain ⟨-, hx, hdisjoint⟩ := nodup_append.mp hnodup
  have hfront : x ∉ (beyond d ctx).reverse ++ u.along d.other := fun hin =>
    hdisjoint x hin x mem_cons_self rfl
  obtain ⟨-, -, hr⟩ :=
    (append_cons_inj_of_notMem hfront (nodup_cons.mp hx).1).mp hsplit
  rw [h.neighbour, hr]

theorem Represents.successor_eq {l r : List ℕ} (hsplit : t.inorder = l ++ x :: r) :
    m.successor x = some (r.head?.getD m.nil) :=
  h.neighbour_eq hsplit

theorem Represents.descend_root (ht : t ≠ .leaf) (d : Side) :
    m.descend d (m.allocated + 1) m.root = some ((t.along d).head?.getD m.nil) := by
  cases t with
  | leaf => exact absurd rfl ht
  | node c l x r =>
    obtain ⟨near, far, hon⟩ := exists_on d c l x r
    rw [hon] at h ⊢
    have hplug : Represents m (plug [] (on d c near x far)) := h
    have hlength := h.length_le
    rw [(inorder_on_perm d c near x far).length_eq, length_append, length_cons] at hlength
    obtain ⟨lower, c', y, u, heq, hside, hdescend⟩ :=
      hplug.descend (by omega : near.inorder.length < m.allocated + 1)
    have hfirst : (on d c near x far).along d = y :: (u.along d ++ beyond d lower) := by
      rw [heq, along_plug, beyond_other_of_side hside, along_on, along_leaf]
      rfl
    rw [show m.root = x from hplug.node.1, hdescend, hfirst]
    rfl

theorem Represents.minimum_eq (ht : t ≠ .leaf) :
    m.minimum m.root = some (t.inorder.head?.getD m.nil) :=
  h.descend_root ht .left

theorem Represents.predecessor_nil :
    m.predecessor m.nil = some (t.inorder.getLast?.getD m.nil) := by
  rw [Tree.predecessor, if_pos rfl]
  by_cases ht : t = .leaf
  · subst ht
    exact if_pos h.shape
  · rw [if_neg fun hnil => ht (h.shape.eq_nil.mp hnil), Tree.maximum, h.descend_root ht .right,
      along, head?_reverse]

theorem Represents.predecessor_eq {l r : List ℕ} (hsplit : t.inorder = l ++ x :: r) :
    m.predecessor x = some (l.getLast?.getD m.nil) := by
  have hmem : x ∈ t.inorder := by
    rw [hsplit]
    exact mem_append_right _ mem_cons_self
  have hreverse : t.along (Side.other .left) = r.reverse ++ x :: l.reverse := by
    rw [Side.other, along, hsplit, reverse_append, reverse_cons, append_assoc]
    rfl
  rw [Tree.predecessor, if_neg (h.shape.ne_nil x hmem), h.neighbour_eq hreverse,
    head?_reverse]

end

theorem boundLoop_eq {T : Type} {m : Tree T} {before : T → Bool} {t : RBTree ℕ} {q p : ℕ}
    {rounds : ℕ} (h : Shape m q p t) (hrounds : t.inorder.length < rounds)
    (hbefore : t.inorder.Pairwise fun x y => before (m.value y) = true → before (m.value x) = true)
    (found : ℕ) : m.boundLoop before rounds found p =
      some ((t.inorder.find? fun x => !before (m.value x)).getD found) := by
  induction t generalizing q p rounds found with
  | leaf =>
    obtain _ | rounds := rounds
    · omega
    rw [Tree.boundLoop, if_pos (shape_leaf.mp h)]
    rfl
  | node c l x r ihl ihr =>
    obtain _ | rounds := rounds
    · omega
    obtain ⟨rfl, hne, -, -, hl, hr⟩ := h
    rw [RBTree.inorder, length_append, length_cons] at hrounds
    rw [RBTree.inorder] at hbefore ⊢
    obtain ⟨hbl, hbr, hcross⟩ := pairwise_append.mp hbefore
    rw [Tree.boundLoop, if_neg hne, find?_append, find?_cons]
    cases hx : before (m.value p) with
    | true =>
      have hnone : l.inorder.find? (fun x => !before (m.value x)) = none := by
        refine find?_eq_none.mpr fun y hy => ?_
        rw [hcross y hy p mem_cons_self hx]
        exact Bool.false_ne_true
      rw [if_pos rfl, hnone, ihr hr (by omega) (pairwise_cons.mp hbr).2]
      rfl
    | false =>
      rw [if_neg Bool.false_ne_true, ihl hl (by omega) hbl]
      cases l.inorder.find? fun x => !before (m.value x) <;> rfl

theorem Shape.within_iff {p q : ℕ} (h : Shape m q p t) : m.Within p x ↔ x ∈ t.inorder := by
  induction t generalizing p q with
  | leaf =>
    refine iff_of_false (fun hin => ?_) not_mem_nil
    cases hin with
    | here hx => exact hx h
    | child _ hx _ => exact hx h
  | node c l y r ihl ihr =>
    obtain ⟨rfl, hne, -, -, hl, hr⟩ := h
    rw [RBTree.inorder, mem_append, mem_cons, ← ihl hl, ← ihr hr]
    constructor
    · intro hin
      cases hin with
      | here _ => exact .inr (.inl rfl)
      | child d _ h =>
        cases d with
        | left => exact .inl h
        | right => exact .inr (.inr h)
    · rintro (h | rfl | h)
      · exact .child .left hne h
      · exact .here hne
      · exact .child .right hne h

end Equilibrium.RedBlackTree2
