import Equilibrium.Containers.RedBlackTree2Erase

/-! Copies, moves and runs: every tree that the operations make is a red-black search tree. -/

namespace Equilibrium.RedBlackTree2

open List (length_append mem_append_right mem_cons mem_cons_self pairwise_append pairwise_cons)
open Library.RedBlack RBTree

variable {T : Type} {cmp : Comparator T} {m other : Tree T} {s t : RBTree ℕ}

theorem valid_construct (cmp : Comparator T) (memory : Tree T) :
    Valid cmp (Tree.construct memory) .leaf where
  shape := rfl
  nodup := List.nodup_nil
  nil := Function.update_self _ _ _
  bounded := nofun
  sentinel := Nat.lt_succ_self _
  rules := colorRules_leaf
  sorted := List.Pairwise.nil

theorem Valid.clear (h : Valid cmp m t) : Valid cmp m.clear .leaf where
  shape := rfl
  nodup := List.nodup_nil
  nil := h.nil
  bounded := nofun
  sentinel := h.sentinel
  rules := colorRules_leaf
  sorted := List.Pairwise.nil

def entries (m : Tree T) (t : RBTree ℕ) : List T := t.inorder.map m.value

theorem Valid.insert_fresh (h : Valid cmp m t) (hc : cmp.Lawful) {v : T}
    (hv : ∀ a ∈ entries m t, cmp.equals v a = false) :
    ∃ m' z t', m.findOrInsert cmp v = some (m', z, true) ∧ Valid cmp m' t' ∧
      (entries m' t').Perm (v :: entries m t) := by
  obtain ⟨m', z, inserted, t', hop, hvalid, -, hcase⟩ := h.findOrInsert hc v
  rcases hcase with ⟨-, -, -, hz, hequals⟩ | ⟨rfl, rfl, -, hvalue, -, l, r, hbefore, hafter⟩
  · have hnone := hv _ (List.mem_map_of_mem hz)
    cases hequals.symm.trans hnone
  · refine ⟨m', _, t', hop, hvalid, ?_⟩
    have hsame : ∀ x ∈ t.inorder, m'.value x = m.value x := fun x hx => by
      rw [hvalue, Function.update_of_ne (Nat.ne_of_lt (h.bounded x hx))]
    rw [entries, entries, hafter, ← List.map_congr_left hsame, hbefore, List.map_append,
      List.map_append, List.map_cons, hvalue, Function.update_self]
    exact List.perm_middle

theorem copySubtree_eq (hc : cmp.Lawful) {p q rounds : ℕ} (hs : Shape other q p s)
    (h : Valid cmp m t) (hrounds : s.inorder.length < rounds)
    (hfresh : ∀ a ∈ entries m t, ∀ b ∈ entries other s, cmp.equals b a = false)
    (hdistinct : (entries other s).Pairwise fun a b =>
      cmp.equals a b = false ∧ cmp.equals b a = false) :
    ∃ m' t', Tree.copySubtree cmp other rounds m p = some m' ∧ Valid cmp m' t' ∧
      (entries m' t').Perm (entries m t ++ entries other s) := by
  induction s generalizing m t p q rounds with
  | leaf =>
    obtain _ | rounds := rounds
    · omega
    refine ⟨m, t, ?_, h, ?_⟩
    · rw [Tree.copySubtree, if_pos (shape_leaf.mp hs)]
    · rw [show entries other .leaf = [] from rfl, List.append_nil]
  | node c l x r ihl ihr =>
    obtain _ | rounds := rounds
    · omega
    obtain ⟨rfl, hne, -, -, hl, hr⟩ := hs
    have hentries : entries other (node c l p r) =
        entries other l ++ other.value p :: entries other r := by
      rw [entries, inorder, List.map_append, List.map_cons]
      rfl
    simp only [inorder, length_append, List.length_cons] at hrounds
    rw [hentries] at hfresh hdistinct ⊢
    obtain ⟨hdl, hdr, hacross⟩ := pairwise_append.mp hdistinct
    obtain ⟨hdp, hdr⟩ := pairwise_cons.mp hdr
    obtain ⟨m₁, z, t₁, hinsert, h₁, hperm₁⟩ := h.insert_fresh hc fun a ha =>
      hfresh a ha _ (mem_append_right _ mem_cons_self)
    obtain ⟨m₂, t₂, hleft, h₂, hperm₂⟩ := ihl hl h₁ (by omega : l.inorder.length < rounds)
      (fun a ha b hb => by
        rcases mem_cons.mp (hperm₁.mem_iff.mp ha) with rfl | ha
        · exact (hacross b hb _ mem_cons_self).1
        · exact hfresh a ha b (List.mem_append_left _ hb)) hdl
    obtain ⟨m₃, t₃, hright, h₃, hperm₃⟩ := ihr hr h₂ (by omega : r.inorder.length < rounds)
      (fun a ha b hb => by
        rcases List.mem_append.mp (hperm₂.mem_iff.mp ha) with ha | ha
        · rcases mem_cons.mp (hperm₁.mem_iff.mp ha) with rfl | ha
          · exact (hdp b hb).2
          · exact hfresh a ha b (mem_append_right _ (List.mem_cons_of_mem _ hb))
        · exact (hacross a ha b (List.mem_cons_of_mem _ hb)).2) hdr
    refine ⟨m₃, t₃, ?_, h₃, ?_⟩
    · rw [Tree.copySubtree, if_neg hne, hinsert]
      simp only [bind, Option.bind, hleft, hright]
    · have hinner : (other.value p :: entries m t ++ entries other l ++ entries other r).Perm
          (entries m t ++ (entries other l ++ other.value p :: entries other r)) := by
        rw [← List.append_assoc, List.cons_append, List.cons_append]
        exact List.perm_middle.symm
      refine hperm₃.trans ((hperm₂.append_right _).trans ?_)
      exact ((hperm₁.append_right _).append_right _).trans hinner

theorem Valid.copyFrom (h : Valid cmp m .leaf) (hc : cmp.Lawful) (hother : Valid cmp other s) :
    ∃ m' t', m.copyFrom cmp other = some m' ∧ Valid cmp m' t' ∧
      (entries m' t').Perm (entries other s) := by
  have hdistinct : (entries other s).Pairwise fun a b =>
      cmp.equals a b = false ∧ cmp.equals b a = false := by
    refine List.pairwise_map.mpr (hother.sorted.imp fun hxy => ?_)
    exact ⟨hc.not_equals (.inl hxy), hc.not_equals (.inr hxy)⟩
  exact copySubtree_eq hc hother.shape h (Nat.lt_succ_of_le hother.length_le) nofun hdistinct

/-- A tree of the nodes of a list in order, and their number. -/
structure Counted (cmp : Comparator T) (m : Tree T) (size : ℕ) (l : List ℕ) : Prop where
  tree : ∃ t, Valid cmp m t ∧ t.inorder = l
  size : size = l.length

section Counted

variable {size x : ℕ} {l r : List ℕ}

section

variable (h : Counted cmp m size l)
include h

theorem Counted.within_iff : m.Within m.root x ↔ x ∈ l := by
  obtain ⟨t, ht, rfl⟩ := h.tree
  exact ht.shape.within_iff

theorem Counted.findOrInsert (hc : cmp.Lawful) (v : T) :
    ∃ m' z inserted l', m.findOrInsert cmp v = some (m', z, inserted) ∧
      Counted cmp m' (if inserted then size + 1 else size) l' := by
  obtain ⟨t, ht, rfl⟩ := h.tree
  obtain ⟨m', z, inserted, t', hop, hvalid, -, hcase⟩ := ht.findOrInsert hc v
  refine ⟨m', z, inserted, t'.inorder, hop, ⟨t', hvalid, rfl⟩, ?_⟩
  rcases hcase with ⟨rfl, -, rfl, -⟩ | ⟨rfl, -, -, -, -, a, b, hbefore, hafter⟩
  · exact h.size
  · have hsize := h.size
    rw [hbefore, length_append] at hsize
    rw [hafter, length_append, List.length_cons]
    exact (congrArg (· + 1) hsize).trans (Nat.add_assoc ..)

theorem Counted.erase (hc : cmp.Lawful) (v : T) :
    ∃ m' erased l', m.erase cmp v = some (m', erased) ∧
      Counted cmp m' (if erased then size - 1 else size) l' ∧ Keeps m m' ∧
      ((erased = false ∧ m' = m ∧ l' = l ∧ ∀ x ∈ l, cmp.equals v (m.value x) = false) ∨
        (erased = true ∧ ∃ z a b, cmp.equals v (m.value z) = true ∧ l = a ++ z :: b ∧
          l' = a ++ b)) := by
  obtain ⟨t, ht, rfl⟩ := h.tree
  obtain ⟨m', erased, t', hop, hvalid, hkeeps, hcase⟩ := ht.erase hc v
  refine ⟨m', erased, t'.inorder, hop, ⟨⟨t', hvalid, rfl⟩, ?_⟩, hkeeps, ?_⟩
  · rcases hcase with ⟨rfl, -, rfl, -⟩ | ⟨rfl, z, a, b, -, hbefore, hafter⟩
    · exact h.size
    · have hsize := h.size
      rw [hbefore, length_append, List.length_cons] at hsize
      rw [hafter, length_append]
      exact (congrArg (· - 1) hsize).trans (by omega)
  · rcases hcase with ⟨herased, hm, rfl, hnone⟩ | hgone
    · exact .inl ⟨herased, hm, rfl, hnone⟩
    · exact .inr hgone

end

theorem eq_of_equals (hc : cmp.Lawful) (hl : l.Pairwise (Before cmp m)) {y : ℕ} (hx : x ∈ l)
    (hy : y ∈ l) (hequals : cmp.equals (m.value x) (m.value y) = true) : x = y := by
  by_contra hne
  have hsymm : Std.Symm fun x y => Before cmp m x y ∨ Before cmp m y x := ⟨fun _ _ => Or.symm⟩
  have hor := (hl.imp fun h => .inl h :
    l.Pairwise fun x y => Before cmp m x y ∨ Before cmp m y x).forall hx hy hne
  exact Bool.false_ne_true ((hc.not_equals hor).symm.trans hequals)

theorem Counted.sorted (h : Counted cmp m size l) : l.Pairwise (Before cmp m) := by
  obtain ⟨t, ht, rfl⟩ := h.tree
  exact ht.sorted

theorem Counted.nodup (h : Counted cmp m size l) : l.Nodup := by
  obtain ⟨t, ht, rfl⟩ := h.tree
  exact ht.nodup

theorem Counted.erase_value (h : Counted cmp m size (l ++ x :: r)) (hc : cmp.Lawful) :
    ∃ m', m.erase cmp (m.value x) = some (m', true) ∧ Counted cmp m' (size - 1) (l ++ r) ∧
      Keeps m m' := by
  have hx : x ∈ l ++ x :: r := mem_append_right _ mem_cons_self
  obtain ⟨m', erased, l', hop, hcounted, hkeeps, hcase⟩ := h.erase hc (m.value x)
  rcases hcase with ⟨-, -, -, hnone⟩ | ⟨rfl, z, a, b, hequals, hbefore, rfl⟩
  · have hrefl := hc.equals.mpr ⟨hc.irrefl (m.value x), hc.irrefl (m.value x)⟩
    cases (hnone x hx).symm.trans hrefl
  · have hz : z ∈ l ++ x :: r := by
      rw [hbefore]
      exact mem_append_right _ mem_cons_self
    obtain rfl := eq_of_equals hc h.sorted hx hz hequals
    obtain ⟨-, hright, hdisjoint⟩ := List.nodup_append.mp h.nodup
    obtain ⟨rfl, -, rfl⟩ := (List.append_cons_inj_of_notMem
      (fun hin => hdisjoint x hin x mem_cons_self rfl)
      (List.nodup_cons.mp hright).1).mp hbefore
    exact ⟨m', hop, hcounted, hkeeps⟩

theorem Counted.copyFrom (h : Counted cmp other size l) (hc : cmp.Lawful)
    (hempty : Valid cmp m .leaf) : ∃ m' l', m.copyFrom cmp other = some m' ∧
      Counted cmp m' size l' ∧ (l'.map m'.value).Perm (l.map other.value) := by
  obtain ⟨t, ht, rfl⟩ := h.tree
  obtain ⟨m', t', hop, hvalid, hperm⟩ := hempty.copyFrom hc ht
  have hlength := hperm.length_eq
  rw [entries, entries, List.length_map, List.length_map] at hlength
  exact ⟨m', t'.inorder, hop, ⟨⟨t', hvalid, rfl⟩, h.size.trans hlength.symm⟩, hperm⟩

theorem counted_construct (cmp : Comparator T) (memory : Tree T) :
    Counted cmp (.construct memory) 0 [] :=
  ⟨⟨.leaf, valid_construct cmp memory, rfl⟩, rfl⟩

theorem Counted.clear (h : Counted cmp m size l) : Counted cmp m.clear 0 [] := by
  obtain ⟨t, ht, -⟩ := h.tree
  exact ⟨⟨.leaf, ht.clear, rfl⟩, rfl⟩

end Counted

namespace Tree

/-- The first node, or the sentinel: `begin` of the map and of the set. -/
def first (m : Tree T) : Option ℕ := if m.root = m.nil then some m.nil else m.minimum m.root

/-- The nodes from `x` on, one `Successor` after the other up to the sentinel. -/
def iterate (m : Tree T) : ℕ → ℕ → Option (List ℕ)
  | 0, _ => none
  | rounds + 1, x =>
    if x = m.nil then some []
    else do
      let next ← m.successor x
      let rest ← m.iterate rounds next
      some (x :: rest)

end Tree

/-- `z` is the first of the stored nodes that satisfy `p`; the sentinel stands for none. -/
def FirstOf (cmp : Comparator T) (m : Tree T) (p : ℕ → Prop) (z : ℕ) : Prop :=
  (z = m.nil ∧ ∀ x, m.Within m.root x → ¬ p x) ∨
    (m.Within m.root z ∧ p z ∧ ∀ x, m.Within m.root x → p x → x = z ∨ Before cmp m z x)

/-- `m'` has the nodes of `m` but `z`, with the values that they had. -/
structure Without (m m' : Tree T) (z : ℕ) : Prop where
  stored : m.Within m.root z
  others : ∀ x, m'.Within m'.root x ↔ m.Within m.root x ∧ x ≠ z
  unchanged : ∀ x, m'.Within m'.root x → m'.value x = m.value x

/-- The nodes of a tree in the list `l`, and the ways over them. -/
structure Walks (cmp : Comparator T) (m : Tree T) (l : List ℕ) : Prop where
  stored : ∀ x, x ∈ l ↔ m.Within m.root x
  increasing : l.Pairwise (Before cmp m)
  iterate : ∃ z, m.first = some z ∧ ∀ rounds, l.length < rounds → m.iterate rounds z = some l
  inverse : ∀ x ∈ l, ∃ y, m.successor x = some y ∧ m.predecessor y = some x
  maximum : m.predecessor m.nil = some (l.getLast?.getD m.nil)
  lowerBound : ∀ v, ∃ z, m.lowerBound cmp v = some z ∧
    FirstOf cmp m (fun x => cmp.lessThan (m.value x) v = false) z
  upperBound : ∀ v, ∃ z, m.upperBound cmp v = some z ∧
    FirstOf cmp m (fun x => cmp.lessThan v (m.value x) = true) z
  erase : ∀ v, ∃ m' erased, m.erase cmp v = some (m', erased) ∧
    ((erased = false ∧ m' = m ∧ ∀ x ∈ l, cmp.equals v (m.value x) = false) ∨
      (erased = true ∧ ∃ z, cmp.equals v (m.value z) = true ∧ Without m m' z))

section Walks

variable {size x : ℕ} {l r : List ℕ}

theorem Counted.first_eq (h : Counted cmp m size l) : m.first = some (l.head?.getD m.nil) := by
  obtain ⟨t, ht, rfl⟩ := h.tree
  by_cases hleaf : t = .leaf
  · subst hleaf
    exact if_pos ht.shape
  · rw [Tree.first, if_neg fun hnil => hleaf (ht.shape.eq_nil.mp hnil),
      ht.toRepresents.minimum_eq hleaf]

theorem Counted.ne_nil (h : Counted cmp m size l) (hx : x ∈ l) : x ≠ m.nil := by
  obtain ⟨t, ht, rfl⟩ := h.tree
  exact ht.shape.ne_nil x hx

theorem Counted.successor_eq (h : Counted cmp m size (l ++ x :: r)) :
    m.successor x = some (r.head?.getD m.nil) := by
  obtain ⟨t, ht, hinorder⟩ := h.tree
  exact ht.toRepresents.successor_eq hinorder

theorem Counted.predecessor_eq (h : Counted cmp m size (l ++ x :: r)) :
    m.predecessor x = some (l.getLast?.getD m.nil) := by
  obtain ⟨t, ht, hinorder⟩ := h.tree
  exact ht.toRepresents.predecessor_eq hinorder

theorem Counted.predecessor_nil (h : Counted cmp m size l) :
    m.predecessor m.nil = some (l.getLast?.getD m.nil) := by
  obtain ⟨t, ht, rfl⟩ := h.tree
  exact ht.toRepresents.predecessor_nil

theorem Counted.iterate_eq (h : Counted cmp m size (l ++ r)) {rounds : ℕ}
    (hrounds : r.length < rounds) : m.iterate rounds (r.head?.getD m.nil) = some r := by
  induction r generalizing l rounds with
  | nil =>
    obtain _ | rounds := rounds
    · omega
    rw [List.head?_nil, Option.getD_none, Tree.iterate, if_pos rfl]
  | cons x r ih =>
    obtain _ | rounds := rounds
    · omega
    have hne : x ≠ m.nil := h.ne_nil (mem_append_right _ mem_cons_self)
    have hsuccessor := h.successor_eq
    rw [List.append_cons] at h
    have hrest := ih h (Nat.lt_of_succ_lt_succ hrounds)
    rw [List.head?_cons, Option.getD_some, Tree.iterate, if_neg hne, hsuccessor]
    simp only [bind, Option.bind, hrest]

section

variable (h : Counted cmp m size l)
include h

theorem Counted.predecessor_successor (hx : x ∈ l) :
    ∃ y, m.successor x = some y ∧ m.predecessor y = some x := by
  obtain ⟨a, b, rfl⟩ := List.append_of_mem hx
  refine ⟨_, h.successor_eq, ?_⟩
  cases b with
  | nil =>
    have hlast := h.predecessor_nil
    rwa [List.getLast?_concat] at hlast
  | cons y b =>
    rw [List.append_cons] at h
    have hback := h.predecessor_eq
    rwa [List.getLast?_concat] at hback

theorem Counted.firstOf (p : ℕ → Bool) :
    FirstOf cmp m (fun x => p x = true) ((l.find? p).getD m.nil) := by
  cases hfind : l.find? p with
  | none =>
    exact .inl ⟨rfl, fun x hx => List.find?_eq_none.mp hfind x (h.within_iff.mp hx)⟩
  | some z =>
    obtain ⟨hz, a, b, rfl, hbefore⟩ := List.find?_eq_some_iff_append.mp hfind
    refine .inr ⟨h.within_iff.mpr (mem_append_right _ mem_cons_self), hz, ?_⟩
    intro x hx hpx
    rcases List.mem_append.mp (h.within_iff.mp hx) with hxa | hxb
    · have hnot := hbefore x hxa
      rw [hpx] at hnot
      cases hnot
    · rcases mem_cons.mp hxb with rfl | hxb
      · exact .inl rfl
      · have hright := (pairwise_append.mp h.sorted).2.1
        exact .inr ((pairwise_cons.mp hright).1 x hxb)

theorem Counted.boundLoop_eq {before : T → Bool}
    (hbefore : ∀ {a b}, cmp.lessThan a b = true → before b = true → before a = true) :
    ∃ z, m.boundLoop before (m.allocated + 1) m.nil m.root = some z ∧
      FirstOf cmp m (fun x => before (m.value x) = false) z := by
  have hfirst := h.firstOf fun x => !before (m.value x)
  obtain ⟨t, ht, rfl⟩ := h.tree
  have hloop := RedBlackTree2.boundLoop_eq ht.shape (Nat.lt_succ_of_le ht.length_le)
    (ht.sorted.imp fun hxy => hbefore hxy) m.nil
  refine ⟨_, hloop, ?_⟩
  simp only [Bool.not_eq_true'] at hfirst
  exact hfirst

end

theorem Counted.without (h : Counted cmp m size (l ++ x :: r)) {m' : Tree T} {size' : ℕ}
    (h' : Counted cmp m' size' (l ++ r)) (hkeeps : Keeps m m') : Without m m' x := by
  refine ⟨h.within_iff.mpr (mem_append_right _ mem_cons_self), fun y => ?_, fun y _ =>
    congrFun hkeeps.value y⟩
  have hx : x ∉ l ++ r := (List.nodup_middle.mp h.nodup).notMem
  have hmem : y ∈ l ++ x :: r ↔ y = x ∨ y ∈ l ++ r := by
    rw [List.perm_middle.mem_iff, mem_cons]
  rw [h'.within_iff, h.within_iff, hmem]
  constructor
  · intro hy
    exact ⟨.inr hy, ne_of_mem_of_not_mem hy hx⟩
  · rintro ⟨rfl | hy, hne⟩
    · exact absurd rfl hne
    · exact hy

theorem Counted.next_after (h : Counted cmp m size (l ++ x :: r)) (hc : cmp.Lawful) {m' : Tree T}
    {size' : ℕ} (h' : Counted cmp m' size' (l ++ r)) (hkeeps : Keeps m m') :
    FirstOf cmp m' (fun y => cmp.lessThan (m.value x) (m'.value y) = true)
      (r.head?.getD m.nil) := by
  have hfirst := h'.firstOf fun y => cmp.lessThan (m.value x) (m'.value y)
  obtain ⟨-, hright, hcross⟩ := pairwise_append.mp h.sorted
  have hleft : l.find? (fun y => cmp.lessThan (m.value x) (m'.value y)) = none := by
    refine List.find?_eq_none.mpr fun y hy => ?_
    rw [hkeeps.value, hc.asymm (hcross y hy x mem_cons_self)]
    exact Bool.false_ne_true
  have hhead : r.find? (fun y => cmp.lessThan (m.value x) (m'.value y)) = r.head? := by
    cases r with
    | nil => rfl
    | cons y r =>
      have hxy : cmp.lessThan (m.value x) (m'.value y) = true := by
        rw [hkeeps.value]
        exact (pairwise_cons.mp hright).1 y mem_cons_self
      rw [List.find?_cons, hxy, List.head?_cons]
  rw [List.find?_append, hleft, hhead, Option.none_or, hkeeps.nil] at hfirst
  exact hfirst

theorem Counted.walks (h : Counted cmp m size l) (hc : cmp.Lawful) : Walks cmp m l where
  stored x := h.within_iff.symm
  increasing := h.sorted
  iterate := ⟨_, h.first_eq, fun rounds hrounds =>
    (show Counted cmp m size ([] ++ l) from h).iterate_eq hrounds⟩
  inverse x hx := h.predecessor_successor hx
  maximum := h.predecessor_nil
  lowerBound v := by
    have hbefore : ∀ {a b}, cmp.lessThan a b = true → cmp.lessThan b v = true →
        cmp.lessThan a v = true := hc.trans
    exact h.boundLoop_eq hbefore
  upperBound v := by
    have hbefore : ∀ {a b}, cmp.lessThan a b = true → (!cmp.lessThan v b) = true →
        (!cmp.lessThan v a) = true := by
      intro a b hab hb
      rw [Bool.not_eq_true'] at hb ⊢
      cases hva : cmp.lessThan v a with
      | false => rfl
      | true => cases hb.symm.trans (hc.trans hva hab)
    obtain ⟨z, hz, hfirst⟩ := h.boundLoop_eq hbefore
    refine ⟨z, hz, ?_⟩
    simp only [Bool.not_eq_false'] at hfirst
    exact hfirst
  erase v := by
    obtain ⟨m', erased, l', hop, hcounted, hkeeps, hcase⟩ := h.erase hc v
    refine ⟨m', erased, hop, ?_⟩
    rcases hcase with ⟨herased, hm, -, hnone⟩ | ⟨herased, z, a, b, hequals, rfl, rfl⟩
    · exact .inl ⟨herased, hm, hnone⟩
    · exact .inr ⟨herased, z, hequals, h.without hcounted hkeeps⟩

end Walks

/-- The search-tree order, the color rules and the parent links, as the memory has them. -/
structure RedBlackSearchTree (cmp : Comparator T) (m : Tree T) : Prop where
  left : ∀ {x y}, m.Within m.root x → m.Within (m.child .left x) y → Before cmp m y x
  right : ∀ {x y}, m.Within m.root x → m.Within (m.child .right x) y → Before cmp m x y
  noRedRed : ∀ {x}, m.Within m.root x → m.color x = .red → ∀ d, m.color (m.child d x) = .black
  balanced : ∀ {n k}, m.BlackPath m.root n → m.BlackPath m.root k → n = k
  root : m.color m.root = .black
  nil : m.color m.nil = .black
  parent : ∀ {x}, m.Within m.root x → ∀ d, m.child d x ≠ m.nil → m.parent (m.child d x) = x
  top : m.root ≠ m.nil → m.parent m.root = m.nil

theorem Shape.parent {p q : ℕ} (h : Shape m q p t) (hp : p ≠ m.nil) : m.parent p = q := by
  cases t with
  | leaf => exact absurd h hp
  | node c l x r =>
    obtain ⟨rfl, -, hq, -⟩ := h
    exact hq

theorem Shape.blackPath {p q n k : ℕ} (h : Shape m q p t) (hbal : t.Balanced n)
    (hpath : m.BlackPath p k) : k = n := by
  induction t generalizing p q n k with
  | leaf =>
    cases hpath with
    | nil => exact hbal.symm
    | child d hx _ => exact absurd h hx
  | node c l x r ihl ihr =>
    obtain ⟨rfl, hne, -, hc, hl, hr⟩ := h
    obtain ⟨j, hbl, hbr, rfl⟩ := hbal
    cases hpath with
    | nil => exact absurd rfl hne
    | child d _ hdown =>
      rw [hc]
      cases d with
      | left => rw [ihl hl hbl hdown]
      | right => rw [ihr hr hbr hdown]

theorem Valid.redBlackSearchTree (h : Valid cmp m t) : RedBlackSearchTree cmp m := by
  have hsplit : ∀ {x}, m.Within m.root x → ∃ ctx c l r, t = plug ctx (on .left c l x r) :=
    fun hx => exists_plug_of_mem .left (h.shape.within_iff.mp hx)
  have hsorted : ∀ {ctx c l x r}, t = plug ctx (on .left c l x r) →
      (l.inorder ++ x :: r.inorder).Pairwise (Before cmp m) := fun heq => by
    have hall := h.sorted
    rw [heq, inorder_plug] at hall
    exact (pairwise_append.mp (pairwise_append.mp hall).1).2.1
  refine ⟨fun hx hy => ?_, fun hx hy => ?_, fun hx hred d => ?_, fun hn hk => ?_, ?_, h.nil,
    fun hx d hne => ?_, h.shape.parent⟩
  · obtain ⟨ctx, c, l, r, heq⟩ := hsplit hx
    obtain ⟨-, -, -, -, hl, -⟩ := Represents.node (heq ▸ h.toRepresents)
    exact (pairwise_append.mp (hsorted heq)).2.2 _ (hl.within_iff.mp hy) _ mem_cons_self
  · obtain ⟨ctx, c, l, r, heq⟩ := hsplit hx
    obtain ⟨-, -, -, -, -, hr⟩ := Represents.node (heq ▸ h.toRepresents)
    exact (pairwise_cons.mp (pairwise_append.mp (hsorted heq)).2.1).1 _
      (hr.within_iff.mp hy)
  · obtain ⟨ctx, c, l, r, heq⟩ := hsplit hx
    obtain ⟨-, -, -, hc, hl, hr⟩ := Represents.node (heq ▸ h.toRepresents)
    obtain ⟨n, -, -, hnored, -⟩ := ColorRules.split (heq ▸ h.rules)
    obtain ⟨hblack, -, -⟩ := noRedRed_on.mp hnored
    obtain ⟨hlb, hrb⟩ := hblack (hc.symm.trans hred)
    cases d with
    | left => exact (hl.color h.nil).trans hlb
    | right => exact (hr.color h.nil).trans hrb
  · obtain ⟨j, hbal⟩ := h.rules.balanced
    exact (h.shape.blackPath hbal hn).trans (h.shape.blackPath hbal hk).symm
  · exact (h.shape.color h.nil).trans h.rules.root
  · obtain ⟨ctx, c, l, r, heq⟩ := hsplit hx
    obtain ⟨-, -, -, -, hl, hr⟩ := Represents.node (heq ▸ h.toRepresents)
    cases d with
    | left => exact hl.parent hne
    | right => exact hr.parent hne

/-- The operations on the trees that a program has; the places in the memory where the new trees
go are given. -/
inductive Operation (T : Type) where
  | findOrInsert (i : ℕ) (value : T)
  | erase (i : ℕ) (value : T)
  | clear (i : ℕ)
  | copyConstruct (i j : ℕ) (memory : Tree T)
  | copyAssign (i j : ℕ)
  | moveConstruct (i j : ℕ) (memory : Tree T)
  | moveAssign (i j : ℕ)

def step (cmp : Comparator T) (trees : ℕ → Tree T) : Operation T → Option (ℕ → Tree T)
  | .findOrInsert i value => do
    let (m, _, _) ← (trees i).findOrInsert cmp value
    some (Function.update trees i m)
  | .erase i value => do
    let (m, _) ← (trees i).erase cmp value
    some (Function.update trees i m)
  | .clear i => some (Function.update trees i (trees i).clear)
  | .copyConstruct i j memory => do
    let m ← Tree.copyConstruct cmp memory (trees j)
    some (Function.update trees i m)
  | .copyAssign i j =>
    if i = j then some trees
    else do
      let m ← (trees i).copyAssign cmp (trees j)
      some (Function.update trees i m)
  | .moveConstruct i j memory =>
    let (m, left) := Tree.moveConstruct memory (trees j)
    some (Function.update (Function.update trees j left) i m)
  | .moveAssign i j =>
    if i = j then some trees
    else
      let (m, left) := (trees i).moveAssign (trees j)
      some (Function.update (Function.update trees j left) i m)

def AllValid (cmp : Comparator T) (trees : ℕ → Tree T) : Prop := ∀ i, ∃ t, Valid cmp (trees i) t

theorem AllValid.update {trees : ℕ → Tree T} (h : AllValid cmp trees) (hm : Valid cmp m t) (i : ℕ) :
    AllValid cmp (Function.update trees i m) := by
  intro j
  by_cases hj : j = i
  · subst hj
    rw [Function.update_self]
    exact ⟨t, hm⟩
  · rw [Function.update_of_ne hj]
    exact h j

theorem AllValid.step {trees : ℕ → Tree T} (hc : cmp.Lawful) (h : AllValid cmp trees)
    (op : Operation T) : ∃ trees', RedBlackTree2.step cmp trees op = some trees' ∧
      AllValid cmp trees' := by
  cases op with
  | findOrInsert i value =>
    obtain ⟨t, ht⟩ := h i
    obtain ⟨m', z, inserted, t', hop, hvalid, -⟩ := ht.findOrInsert hc value
    exact ⟨_, by rw [RedBlackTree2.step, hop]; rfl, h.update hvalid i⟩
  | erase i value =>
    obtain ⟨t, ht⟩ := h i
    obtain ⟨m', removed, t', hop, hvalid, -⟩ := ht.erase hc value
    exact ⟨_, by rw [RedBlackTree2.step, hop]; rfl, h.update hvalid i⟩
  | clear i =>
    obtain ⟨t, ht⟩ := h i
    exact ⟨_, rfl, h.update ht.clear i⟩
  | copyConstruct i j memory =>
    obtain ⟨s, hs⟩ := h j
    obtain ⟨m', t', hop, hvalid, -⟩ := (valid_construct cmp memory).copyFrom hc hs
    exact ⟨_, by rw [RedBlackTree2.step, Tree.copyConstruct, hop]; rfl, h.update hvalid i⟩
  | copyAssign i j =>
    by_cases hij : i = j
    · exact ⟨trees, if_pos hij, h⟩
    · obtain ⟨t, ht⟩ := h i
      obtain ⟨s, hs⟩ := h j
      obtain ⟨m', t', hop, hvalid, -⟩ := ht.clear.copyFrom hc hs
      refine ⟨_, ?_, h.update hvalid i⟩
      rw [RedBlackTree2.step, if_neg hij, Tree.copyAssign, hop]
      rfl
  | moveConstruct i j memory =>
    obtain ⟨s, hs⟩ := h j
    exact ⟨_, rfl, (h.update (valid_construct cmp memory) j).update hs i⟩
  | moveAssign i j =>
    by_cases hij : i = j
    · exact ⟨trees, if_pos hij, h⟩
    · obtain ⟨t, ht⟩ := h i
      obtain ⟨s, hs⟩ := h j
      exact ⟨_, if_neg hij, (h.update ht.clear j).update hs i⟩

theorem AllValid.run {trees : ℕ → Tree T} (hc : cmp.Lawful) (h : AllValid cmp trees)
    (ops : List (Operation T)) : ∃ trees', ops.foldlM (RedBlackTree2.step cmp) trees = some trees' ∧
      AllValid cmp trees' := by
  induction ops generalizing trees with
  | nil => exact ⟨trees, rfl, h⟩
  | cons op ops ih =>
    obtain ⟨trees₁, hstep, h₁⟩ := h.step hc op
    obtain ⟨trees₂, hrun, h₂⟩ := ih h₁
    refine ⟨trees₂, ?_, h₂⟩
    rw [List.foldlM_cons, hstep]
    exact hrun

/-- Every tree of every run is a red-black search tree. -/
theorem run_redBlackSearchTree (hc : cmp.Lawful) (memory : ℕ → Tree T) (ops : List (Operation T)) :
    ∃ trees, ops.foldlM (step cmp) (fun i => Tree.construct (memory i)) = some trees ∧
      ∀ i, RedBlackSearchTree cmp (trees i) := by
  have hinit : AllValid cmp fun i => Tree.construct (memory i) := fun i =>
    ⟨.leaf, valid_construct cmp (memory i)⟩
  obtain ⟨trees, hrun, hvalid⟩ := AllValid.run hc hinit ops
  refine ⟨trees, hrun, fun i => ?_⟩
  obtain ⟨t, ht⟩ := hvalid i
  exact ht.redBlackSearchTree

def naturals : Comparator ℕ := ⟨fun a b => decide (a < b), fun a b => a == b⟩

theorem lawful_naturals : naturals.Lawful where
  irrefl a := decide_eq_false (Nat.lt_irrefl a)
  trans hab hbc :=
    decide_eq_true (Nat.lt_trans (of_decide_eq_true hab) (of_decide_eq_true hbc))
  equals := by
    intro a b
    rw [naturals, beq_iff_eq, decide_eq_false_iff_not, decide_eq_false_iff_not]
    omega

def blank (value : T) : Tree T where
  root := 0
  nil := 0
  value _ := value
  color _ := .red
  child _ _ := 0
  parent _ := 0
  allocated := 0

/-- A run with an insertion, a copy, an erasure and a move. -/
theorem run_redBlackSearchTree_naturals :
    ∃ trees, [.findOrInsert 0 5, .findOrInsert 0 3, .findOrInsert 0 4, .copyAssign 1 0, .erase 0 3,
        .moveAssign 1 0, .clear 0].foldlM (step naturals) (fun _ => Tree.construct (blank 0)) =
      some trees ∧ ∀ i, RedBlackSearchTree naturals (trees i) :=
  run_redBlackSearchTree lawful_naturals (fun _ => blank 0) _

end Equilibrium.RedBlackTree2
