import Equilibrium.Containers.ChainedHashMap
import Mathlib.Algebra.Group.Nat.Defs
import Mathlib.Data.List.Perm.Basic

/-! The chains of the buckets: the list that each bucket holds, and what the operations make
of these lists. -/

namespace Equilibrium.ChainedHashMap

open Library.LinkedChain List Nat
open Function (update update_self update_of_ne)

variable {K V : Type} {m m' : HashMap K V} {chain chain' : ℕ → List ℕ} {count b x : ℕ}
  {p q via via' : Option ℕ} {l l' a c rest : List ℕ} {rounds : ℕ}

theorem bucketOf_lt {shift : ℕ} (hshift : shift ≤ 64) (h : UInt64) :
    bucketOf shift h < 1 <<< shift := by
  have hlt : (h * 0x9E3779B97F4A7C15).toNat < 2 ^ 64 := UInt64.toNat_lt _
  have hpow : 2 ^ (64 - shift) * 2 ^ shift = 2 ^ 64 := by
    rw [← Nat.pow_add, Nat.sub_add_cancel hshift]
  rw [bucketOf, shiftRight_eq_div_pow, shiftLeft_eq, Nat.one_mul]
  refine Nat.div_lt_of_lt_mul ?_
  rw [hpow]
  exact hlt

def nodes (chain : ℕ → List ℕ) (count : ℕ) : List ℕ := (List.range count).flatMap chain

theorem mem_nodes : x ∈ nodes chain count ↔ ∃ b < count, x ∈ chain b := by
  rw [nodes, mem_flatMap]
  exact exists_congr fun b => and_congr_left' mem_range

theorem nodes_split (hb : b < count) :
    nodes chain count = nodes chain b ++ (chain b ++ following chain count b) := by
  have hrange : range count = range b ++ b :: range' (b + 1) (count - 1 - b) := by
    have happend := range'_append_1 (s := 0) (m := b) (n := count - 1 - b + 1)
    rw [Nat.zero_add, show b + (count - 1 - b + 1) = count by omega] at happend
    rw [range_eq_range', range_eq_range', ← range'_succ, happend]
  rw [nodes, hrange, flatMap_append, flatMap_cons]
  rfl

theorem nodes_congr (h : ∀ b < count, chain b = chain' b) :
    nodes chain count = nodes chain' count :=
  flatMap_congr fun b hb => h b (mem_range.mp hb)

theorem following_congr (h : ∀ d, b < d → chain d = chain' d) :
    following chain count b = following chain' count b :=
  flatMap_congr fun d hd => h d (mem_range'_1.mp hd).1

theorem nodes_update (hb : b < count) (l : List ℕ) : nodes (update chain b l) count =
    nodes chain b ++ (l ++ following chain count b) := by
  rw [nodes_split hb, update_self,
    nodes_congr fun d hd => update_of_ne (Nat.ne_of_lt hd) l chain,
    following_congr fun d hd => update_of_ne (Nat.ne_of_gt hd) l chain]

/-- The buckets hold the chains, and every node is in the bucket of its hash. -/
structure Chains (m : HashMap K V) (chain : ℕ → List ℕ) : Prop where
  linked : ∀ b < m.bucketCount, Segment m.next (m.buckets b) (chain b) none
  placed : ∀ b < m.bucketCount, ∀ x ∈ chain b, bucketOf m.bucketShift (m.hash x) = b
  bounded : ∀ b < m.bucketCount, ∀ x ∈ chain b, x < m.allocated
  table : m.bucketCount = 0 ∨ m.bucketShift ≤ 64 ∧ m.bucketCount = 1 <<< m.bucketShift

/-- The stored number of nodes is right as well. -/
structure Holds (m : HashMap K V) (chain : ℕ → List ℕ) : Prop extends Chains m chain where
  size : m.size = (nodes chain m.bucketCount).length

section

variable (h : Chains m chain)
include h

theorem Chains.disjoint {d : ℕ} (hb : b < m.bucketCount) (hd : d < m.bucketCount) (hne : b ≠ d)
    (hx : x ∈ chain b) : x ∉ chain d := fun hxd =>
  hne ((h.placed b hb x hx).symm.trans (h.placed d hd x hxd))

theorem Chains.nodup : (nodes chain m.bucketCount).Nodup := by
  refine nodup_flatMap.mpr ⟨fun b hb => (h.linked b (mem_range.mp hb)).nodup, ?_⟩
  refine nodup_range.imp_of_mem fun {b d} hb hd hne x hxb hxd => ?_
  exact h.disjoint (mem_range.mp hb) (mem_range.mp hd) hne hxb hxd

theorem Chains.bucketOf_lt (hcount : m.bucketCount ≠ 0) (hash : UInt64) :
    bucketOf m.bucketShift hash < m.bucketCount := by
  obtain ⟨hshift, hpow⟩ := h.table.resolve_left hcount
  rw [hpow]
  exact ChainedHashMap.bucketOf_lt hshift hash

theorem Chains.length_le (hb : b < m.bucketCount) : (chain b).length ≤ m.allocated := by
  have hsub : chain b ⊆ range m.allocated := fun x hx =>
    mem_range.mpr (h.bounded b hb x hx)
  have hlength := (subperm_of_subset (h.linked b hb).nodup hsub).length_le
  rwa [length_range] at hlength

theorem Chains.findSome {l : List ℕ} (hl : ∀ b ∈ l, b < m.bucketCount) :
    l.findSome? m.buckets = (l.flatMap chain).head? := by
  induction l with
  | nil => rfl
  | cons b l ih =>
    have hb := (h.linked b (hl b mem_cons_self)).head_eq
    rw [findSome?_cons, hb, flatMap_cons, head?_append,
      ih fun d hd => hl d (mem_cons_of_mem _ hd)]
    cases (chain b).head? <;> rfl

theorem Chains.firstNode : m.firstNode = (nodes chain m.bucketCount).head? :=
  h.findSome fun _ hb => mem_range.mp hb

theorem Chains.contains_iff : m.Contains x ↔ x ∈ nodes chain m.bucketCount := by
  rw [mem_nodes]
  exact exists_congr fun b => and_congr_right fun hb => (h.linked b hb).reach_iff

theorem Chains.split (hsplit : nodes chain m.bucketCount = l ++ x :: l') :
    ∃ b a c, b < m.bucketCount ∧ chain b = a ++ x :: c ∧ nodes chain b ++ a = l ∧
      c ++ following chain m.bucketCount b = l' := by
  have hmem : x ∈ nodes chain m.bucketCount := by
    rw [hsplit]
    exact mem_append_right _ mem_cons_self
  obtain ⟨b, hb, hxb⟩ := mem_nodes.mp hmem
  obtain ⟨a, c, hchain⟩ := append_of_mem hxb
  have hnodup := h.nodup
  have heq : nodes chain m.bucketCount =
      (nodes chain b ++ a) ++ x :: (c ++ following chain m.bucketCount b) := by
    rw [nodes_split hb, hchain, append_assoc, append_assoc, cons_append]
  rw [heq] at hsplit hnodup
  obtain ⟨-, hx, hdisjoint⟩ := nodup_append.mp hnodup
  obtain ⟨hl, -, hr⟩ := (append_cons_inj_of_notMem
    (fun hin => hdisjoint x hin x mem_cons_self rfl) (nodup_cons.mp hx).1).mp hsplit
  exact ⟨b, a, c, hb, hchain, hl, hr⟩

theorem Chains.nextNode (hsplit : nodes chain m.bucketCount = l ++ x :: l') :
    m.nextNode x = l'.head? := by
  obtain ⟨b, a, c, hb, hchain, -, rfl⟩ := h.split hsplit
  have hxb : x ∈ chain b := by
    rw [hchain]
    exact mem_append_right _ mem_cons_self
  have hlinked := h.linked b hb
  rw [hchain] at hlinked
  obtain ⟨q, -, rfl, hc⟩ := segment_append.mp hlinked
  rw [HashMap.nextNode, hc.head_eq, head?_append, h.placed b hb x hxb]
  cases c with
  | cons y c => rfl
  | nil =>
    have hfollowing : (range' (b + 1) (m.bucketCount - (b + 1))).findSome? m.buckets =
        (following chain m.bucketCount b).head? := by
      rw [following, show m.bucketCount - 1 - b = m.bucketCount - (b + 1) by omega]
      refine h.findSome fun d hd => ?_
      have := mem_range'_1.mp hd
      omega
    exact hfollowing

end

/-! A node goes. -/

/-- The link that leads to what is behind the nodes `a`, which were reached over `link`. -/
def lastLink (link : Option ℕ) (a : List ℕ) : Option ℕ := a.getLast?.or link

theorem lastLink_cons (link : Option ℕ) (x : ℕ) (a : List ℕ) :
    lastLink link (x :: a) = lastLink (some x) a := by
  rw [lastLink, lastLink, getLast?_cons]
  cases a.getLast? <;> rfl

theorem victimLoop_eq (hchain : Segment m.next (m.slot b via) (a ++ x :: c) none)
    (hrounds : a.length < rounds) : m.victimLoop b x rounds via = some (lastLink via a) := by
  induction a generalizing via rounds with
  | nil =>
    obtain _ | rounds := rounds
    · omega
    have hslot : m.slot b via = some x := hchain.1
    rw [HashMap.victimLoop, hslot]
    exact if_pos rfl
  | cons y a ih =>
    obtain _ | rounds := rounds
    · omega
    have hne : y ≠ x := by
      rintro rfl
      exact (nodup_cons.mp hchain.nodup).1 (mem_append_right _ mem_cons_self)
    obtain ⟨hslot, hrest⟩ := hchain
    rw [HashMap.victimLoop, hslot, lastLink_cons]
    exact (if_neg hne).trans (ih hrest (lt_of_succ_lt_succ hrounds))

theorem matchLoop_some {h : UInt64} {key : K} (hchain : Segment m.next p l none)
    (hfound : m.matchLoop h key rounds via p = some (some (via', x))) :
    ∃ a c, l = a ++ x :: c ∧ via' = lastLink via a := by
  induction l generalizing p via rounds with
  | nil =>
    rw [segment_nil.mp hchain] at hfound
    cases rounds <;> cases hfound
  | cons y l ih =>
    obtain ⟨rfl, hrest⟩ := hchain
    cases rounds with
    | zero => cases hfound
    | succ rounds =>
      rw [HashMap.matchLoop] at hfound
      split at hfound
      · cases hfound
        exact ⟨[], l, rfl, rfl⟩
      · obtain ⟨a, c, rfl, rfl⟩ := ih hrest hfound
        exact ⟨y :: a, c, rfl, (lastLink_cons ..).symm⟩

section Unlink

variable (m b x via)

@[simp] theorem unlink_bucketCount : (m.unlink b via x).bucketCount = m.bucketCount := by
  cases via <;> rfl
@[simp] theorem unlink_bucketShift : (m.unlink b via x).bucketShift = m.bucketShift := by
  cases via <;> rfl
@[simp] theorem unlink_hash : (m.unlink b via x).hash = m.hash := by cases via <;> rfl
@[simp] theorem unlink_value : (m.unlink b via x).value = m.value := by cases via <;> rfl
@[simp] theorem unlink_allocated : (m.unlink b via x).allocated = m.allocated := by
  cases via <;> rfl
@[simp] theorem unlink_hasher : (m.unlink b via x).hasher = m.hasher := by cases via <;> rfl
@[simp] theorem unlink_equal : (m.unlink b via x).equal = m.equal := by cases via <;> rfl
@[simp] theorem unlink_size : (m.unlink b via x).size = m.size - 1 := by cases via <;> rfl

end Unlink

theorem Chains.unlink (h : Chains m chain) (hb : b < m.bucketCount)
    (hchain : chain b = a ++ x :: c) :
    Chains (m.unlink b (lastLink none a) x) (update chain b (a ++ c)) := by
  have hlinked := h.linked b hb
  rw [hchain] at hlinked
  have hsub : ∀ d < m.bucketCount, ∀ y ∈ update chain b (a ++ c) d, y ∈ chain d := by
    intro d _ y hy
    by_cases hd : d = b
    · subst hd
      rw [update_self] at hy
      rw [hchain]
      rcases mem_append.mp hy with hy | hy
      · exact mem_append_left _ hy
      · exact mem_append_right _ (mem_cons_of_mem _ hy)
    · rwa [update_of_ne hd] at hy
  refine ⟨fun d hd => ?_, fun d hd y hy => ?_, fun d hd y hy => ?_, ?_⟩
  · rw [unlink_bucketCount] at hd
    rcases eq_nil_or_concat a with rfl | ⟨a, y, rfl⟩
    · obtain ⟨-, hc⟩ := hlinked
      by_cases hdb : d = b
      · subst hdb
        rw [update_self]
        have hslot : (m.unlink d none x).buckets d = m.next x := update_self ..
        rw [show lastLink none [] = none from rfl, hslot]
        exact hc
      · rw [update_of_ne hdb]
        have hslot : (m.unlink b none x).buckets d = m.buckets d := update_of_ne hdb ..
        rw [show lastLink none [] = none from rfl, hslot]
        exact h.linked d hd
    · have hlink : lastLink none (a ++ [y]) = some y := by
        rw [lastLink, getLast?_concat]
        rfl
      rw [concat_eq_append] at *
      rw [hlink]
      by_cases hdb : d = b
      · subst hdb
        rw [append_assoc] at hlinked
        rw [update_self, append_assoc]
        exact hlinked.unlink
      · rw [update_of_ne hdb]
        have hy : y ∈ chain b := by
          rw [hchain]
          exact mem_append_left _ mem_concat_self
        exact (h.linked d hd).update (h.disjoint hb hd (Ne.symm hdb) hy)
  · rw [unlink_bucketCount] at hd
    rw [unlink_bucketShift, unlink_hash]
    exact h.placed d hd y (hsub d hd y hy)
  · rw [unlink_bucketCount] at hd
    rw [unlink_allocated]
    exact h.bounded d hd y (hsub d hd y hy)
  · rw [unlink_bucketCount, unlink_bucketShift]
    exact h.table

theorem Holds.unlink (h : Holds m chain) (hb : b < m.bucketCount)
    (hchain : chain b = a ++ x :: c) : Holds (m.unlink b (lastLink none a) x)
      (update chain b (a ++ c)) := by
  refine ⟨h.toChains.unlink hb hchain, ?_⟩
  have hsize := h.size
  rw [nodes_split hb, hchain] at hsize
  rw [unlink_size, unlink_bucketCount, nodes_update hb]
  simp only [length_append, length_cons] at hsize ⊢
  omega

/-! A node comes. -/

/-- What a change of the chains leaves of the memory. -/
structure SameTable (m m' : HashMap K V) : Prop where
  bucketCount : m'.bucketCount = m.bucketCount
  bucketShift : m'.bucketShift = m.bucketShift
  hash : m'.hash = m.hash
  value : m'.value = m.value
  allocated : m'.allocated = m.allocated
  size : m'.size = m.size
  hasher : m'.hasher = m.hasher
  equal : m'.equal = m.equal

theorem SameTable.refl (m : HashMap K V) : SameTable m m := ⟨rfl, rfl, rfl, rfl, rfl, rfl, rfl, rfl⟩

theorem SameTable.trans {m₁ m₂ m₃ : HashMap K V} (h : SameTable m₁ m₂) (h' : SameTable m₂ m₃) :
    SameTable m₁ m₃ :=
  ⟨h'.bucketCount.trans h.bucketCount, h'.bucketShift.trans h.bucketShift, h'.hash.trans h.hash,
    h'.value.trans h.value, h'.allocated.trans h.allocated, h'.size.trans h.size,
    h'.hasher.trans h.hasher, h'.equal.trans h.equal⟩

theorem sameTable_pushFront (m : HashMap K V) (b x : ℕ) : SameTable m (m.pushFront b x) :=
  ⟨rfl, rfl, rfl, rfl, rfl, rfl, rfl, rfl⟩

theorem Chains.pushFront (h : Chains m chain) (hb : b < m.bucketCount)
    (hx : x ∉ nodes chain m.bucketCount) (hplace : bucketOf m.bucketShift (m.hash x) = b)
    (hbound : x < m.allocated) : Chains (m.pushFront b x) (update chain b (x :: chain b)) := by
  have hnot : ∀ d < m.bucketCount, x ∉ chain d := fun d hd hin => hx (mem_nodes.mpr ⟨d, hd, hin⟩)
  have hold : ∀ d < m.bucketCount, Segment (m.pushFront b x).next (m.buckets d) (chain d) none :=
    fun d hd => (h.linked d hd).update (hnot d hd)
  refine ⟨fun d hd => ?_, fun d hd y hy => ?_, fun d hd y hy => ?_, h.table⟩
  · by_cases hdb : d = b
    · subst hdb
      have hslot : (m.pushFront d x).buckets d = some x := update_self ..
      have hnext : (m.pushFront d x).next x = m.buckets d := update_self ..
      rw [update_self, hslot, segment_cons, hnext]
      exact ⟨rfl, hold d hd⟩
    · have hslot : (m.pushFront b x).buckets d = m.buckets d := update_of_ne hdb ..
      rw [update_of_ne hdb, hslot]
      exact hold d hd
  · by_cases hdb : d = b
    · subst hdb
      rw [update_self] at hy
      rcases mem_cons.mp hy with rfl | hy
      · exact hplace
      · exact h.placed d hd y hy
    · rw [update_of_ne hdb] at hy
      exact h.placed d hd y hy
  · by_cases hdb : d = b
    · subst hdb
      rw [update_self] at hy
      rcases mem_cons.mp hy with rfl | hy
      · exact hbound
      · exact h.bounded d hd y hy
    · rw [update_of_ne hdb] at hy
      exact h.bounded d hd y hy

theorem nodes_push_perm (hb : b < count) :
    (nodes (update chain b (x :: chain b)) count).Perm (x :: nodes chain count) := by
  rw [nodes_update hb, nodes_split hb, cons_append]
  exact perm_middle

theorem relinkLoop_eq (h : Chains m chain) (hcount : m.bucketCount ≠ 0)
    (hrest : Segment m.next p rest none) (hapart : rest.Disjoint (nodes chain m.bucketCount))
    (hbound : ∀ x ∈ rest, x < m.allocated) (hrounds : rest.length < rounds) :
    ∃ m' chain', HashMap.relinkLoop rounds m p = some m' ∧ Chains m' chain' ∧ SameTable m m' ∧
      (nodes chain' m.bucketCount).Perm (rest ++ nodes chain m.bucketCount) ∧
      ∀ x, x ∉ rest → m'.next x = m.next x := by
  induction rest generalizing m chain p rounds with
  | nil =>
    obtain _ | rounds := rounds
    · omega
    rw [segment_nil.mp hrest]
    exact ⟨m, chain, rfl, h, .refl m, .refl _, fun _ _ => rfl⟩
  | cons x rest ih =>
    obtain _ | rounds := rounds
    · omega
    obtain ⟨hxrest, -⟩ := nodup_cons.mp hrest.nodup
    obtain ⟨rfl, hrest⟩ := hrest
    obtain ⟨hx, hapart⟩ := disjoint_cons_left.mp hapart
    have hb := h.bucketOf_lt hcount (m.hash x)
    have hpush := h.pushFront hb hx rfl (hbound x mem_cons_self)
    have hperm : (nodes (update chain (bucketOf m.bucketShift (m.hash x))
        (x :: chain (bucketOf m.bucketShift (m.hash x)))) m.bucketCount).Perm
          (x :: nodes chain m.bucketCount) := nodes_push_perm hb
    obtain ⟨m', chain', hloop, hchains, hsame, hperm', hnext⟩ := ih hpush hcount
      (hrest.update hxrest) (fun y hy hin => by
        rcases mem_cons.mp (hperm.mem_iff.mp hin) with rfl | hin
        · exact hxrest hy
        · exact hapart hy hin)
      (fun y hy => hbound y (mem_cons_of_mem _ hy)) (lt_of_succ_lt_succ hrounds)
    refine ⟨m', chain', hloop, hchains, (sameTable_pushFront m _ x).trans hsame, ?_,
      fun y hy => ?_⟩
    · exact (hperm'.trans (hperm.append_left rest)).trans perm_middle
    · rw [mem_cons, not_or] at hy
      obtain ⟨hyx, hy⟩ := hy
      exact (hnext y hy).trans (update_of_ne hyx ..)

theorem relinkAll_eq {old : HashMap K V} {chain₀ : ℕ → List ℕ} (hold : Chains old chain₀)
    (hcount : m.bucketCount ≠ 0) (hallocated : m.allocated = old.allocated) {bs : List ℕ}
    (hbs : ∀ b ∈ bs, b < old.bucketCount) (hnodup : bs.Nodup) (h : Chains m chain)
    (hnext : ∀ b ∈ bs, ∀ x ∈ chain₀ b, m.next x = old.next x)
    (hapart : (bs.flatMap chain₀).Disjoint (nodes chain m.bucketCount)) :
    ∃ m' chain', bs.foldlM (fun fresh b =>
        HashMap.relinkLoop (old.allocated + 1) fresh (old.buckets b)) m = some m' ∧
      Chains m' chain' ∧ SameTable m m' ∧
      (nodes chain' m.bucketCount).Perm (bs.flatMap chain₀ ++ nodes chain m.bucketCount) := by
  induction bs generalizing m chain with
  | nil => exact ⟨m, chain, rfl, h, .refl m, .refl _⟩
  | cons b bs ih =>
    have hb := hbs b mem_cons_self
    obtain ⟨hbnot, hnodup⟩ := nodup_cons.mp hnodup
    rw [flatMap_cons, disjoint_append_left] at hapart
    obtain ⟨m₁, chain₁, hloop, h₁, hsame, hperm, hframe⟩ := relinkLoop_eq h hcount
      ((hold.linked b hb).congr (hnext b mem_cons_self)) hapart.1
      (fun x hx => hallocated ▸ hold.bounded b hb x hx) (lt_succ_of_le (hold.length_le hb))
    have hcross : ∀ d ∈ bs, ∀ x ∈ chain₀ d, x ∉ chain₀ b := fun d hd x hx =>
      hold.disjoint (hbs d (mem_cons_of_mem _ hd)) hb
        (ne_of_mem_of_not_mem hd hbnot) hx
    obtain ⟨m₂, chain₂, hrun, h₂, hsame₂, hperm₂⟩ := ih (hsame.bucketCount ▸ hcount)
      (hsame.allocated.trans hallocated) (fun d hd => hbs d (mem_cons_of_mem _ hd)) hnodup h₁
      (fun d hd x hx => (hframe x (hcross d hd x hx)).trans
        (hnext d (mem_cons_of_mem _ hd) x hx))
      (fun x hx hin => by
        rw [hsame.bucketCount] at hin
        rcases mem_append.mp (hperm.mem_iff.mp hin) with hin | hin
        · obtain ⟨d, hd, hxd⟩ := mem_flatMap.mp hx
          exact hcross d hd x hxd hin
        · exact hapart.2 hx hin)
    rw [hsame.bucketCount] at hperm₂
    refine ⟨m₂, chain₂, ?_, h₂, hsame.trans hsame₂, ?_⟩
    · rw [foldlM_cons, hloop]
      exact hrun
    · rw [flatMap_cons, append_assoc]
      refine hperm₂.trans ((hperm.append_left _).trans ?_)
      rw [← append_assoc, ← append_assoc]
      exact perm_append_comm.append_right _

/-! The table grows. -/

theorem roundUpLoop_eq {n p : ℕ} (hp : p = 0 ∧ 0 < n ∨ ∃ k ≤ 63, p = 1 <<< k)
    (h : roundUpLoop n rounds p = some count) : n ≤ count ∧ ∃ k ≤ 63, count = 1 <<< k := by
  induction rounds generalizing p with
  | zero => cases h
  | succ rounds ih =>
    rw [roundUpLoop] at h
    split at h
    case isFalse hle =>
      cases h
      rcases hp with ⟨rfl, hn⟩ | hpow
      · exact absurd hn hle
      · exact ⟨Nat.le_of_not_lt hle, hpow⟩
    case isTrue hlt =>
      refine ih ?_ h
      rcases hp with ⟨rfl, hn⟩ | ⟨k, hk, rfl⟩
      · exact .inl ⟨rfl, hn⟩
      · have hdouble : (1 <<< k) * 2 = 1 <<< (k + 1) := by
          rw [shiftLeft_eq, shiftLeft_eq, Nat.pow_succ, Nat.mul_assoc]
        rw [hdouble]
        rcases Nat.lt_or_eq_of_le hk with hk | rfl
        · refine .inr ⟨k + 1, hk, mod_eq_of_lt ?_⟩
          rw [shiftLeft_eq, Nat.one_mul]
          exact Nat.pow_lt_pow_right (by decide) (by omega : k + 1 < 64)
        · exact .inl ⟨by decide, zero_lt_of_lt hlt⟩

theorem shiftLoop_eq {k s : ℕ} (hs : s ≤ k) (hrounds : k < s + rounds) :
    shiftLoop (1 <<< k) rounds s = some k := by
  induction rounds generalizing s with
  | zero => omega
  | succ rounds ih =>
    have hlt : 1 <<< s < 1 <<< k ↔ s < k := by
      rw [shiftLeft_eq, shiftLeft_eq, Nat.one_mul, Nat.one_mul]
      exact Nat.pow_lt_pow_iff_right (by decide)
    rw [shiftLoop]
    rcases Nat.lt_or_eq_of_le hs with hs | rfl
    · rw [if_pos (hlt.mpr hs)]
      exact ih hs (by omega)
    · exact if_neg fun h => Nat.lt_irrefl _ (hlt.mp h)

theorem roundUpLoop_total {n k top : ℕ} (htop : top ≤ 63) (hn : n ≤ 1 <<< top) (hk : k ≤ top)
    (hrounds : top < k + rounds) : ∃ j ≤ top, roundUpLoop n rounds (1 <<< k) = some (1 <<< j) := by
  induction rounds generalizing k with
  | zero => omega
  | succ rounds ih =>
    rw [roundUpLoop]
    by_cases hlt : 1 <<< k < n
    · have hk' : k < top := by
        by_contra hge
        obtain rfl : k = top := by omega
        omega
      have hdouble : (1 <<< k) * 2 = 1 <<< (k + 1) := by
        rw [shiftLeft_eq, shiftLeft_eq, Nat.pow_succ, Nat.mul_assoc]
      have hbound : 1 <<< (k + 1) < UInt64.size := by
        rw [shiftLeft_eq, Nat.one_mul]
        exact Nat.pow_lt_pow_right (by decide) (by omega : k + 1 < 64)
      rw [if_pos hlt, hdouble, mod_eq_of_lt hbound]
      exact ih hk' (by omega)
    · exact ⟨k, hk, if_neg hlt⟩

/-- What a rehash to `1 <<< k` buckets makes, when the block for them is not cut. -/
theorem Chains.rehash_eq {wanted k : ℕ} (h : Chains m chain) (hk : k ≤ 63)
    (hround : roundUpToPowerOfTwo wanted = some (1 <<< k))
    (hfit : ¬ (1 <<< k) * 8 % UInt64.size < (1 <<< k) * 8) :
    ∃ m' chain', m.rehash wanted = some m' ∧ Chains m' chain' ∧ m'.bucketCount = 1 <<< k ∧
      (nodes chain' m'.bucketCount).Perm (nodes chain m.bucketCount) ∧ m'.hash = m.hash ∧
      m'.value = m.value ∧ m'.allocated = m.allocated ∧ m'.size = m.size ∧
      m'.hasher = m.hasher ∧ m'.equal = m.equal := by
  have hshift : shiftLoop (1 <<< k) 65 0 = some k := shiftLoop_eq (Nat.zero_le k) (by omega)
  have hcount : 1 <<< k ≠ 0 := by
    rw [shiftLeft_eq, Nat.one_mul]
    exact Nat.pos_iff_ne_zero.mp (Nat.two_pow_pos k)
  have hempty : nodes (fun _ => []) (1 <<< k) = [] := flatMap_eq_nil_iff.mpr fun _ _ => rfl
  have hfresh : Chains (m.freshTable (1 <<< k) k) (fun _ => []) :=
    ⟨fun _ _ => rfl, fun _ _ => nofun, fun _ _ => nofun, .inr ⟨le_succ_of_le hk, rfl⟩⟩
  have hapart : ((range m.bucketCount).flatMap chain).Disjoint
      (nodes (fun _ => []) (1 <<< k)) := by
    rw [hempty]
    exact disjoint_nil_right _
  obtain ⟨m₁, chain', hrun, hchains, hsame, hperm⟩ := relinkAll_eq h
    (show (m.freshTable (1 <<< k) k).bucketCount ≠ 0 from hcount) rfl
    (fun b hb => mem_range.mp hb) nodup_range hfresh (fun _ _ _ _ => rfl) hapart
  have hcount' : m₁.bucketCount = 1 <<< k := hsame.bucketCount
  rw [show (m.freshTable (1 <<< k) k).bucketCount = 1 <<< k from rfl, hempty,
    append_nil, ← hcount'] at hperm
  refine ⟨m₁, chain', ?_, hchains, hcount', hperm, hsame.hash, hsame.value, hsame.allocated,
    hsame.size, hsame.hasher, hsame.equal⟩
  rw [HashMap.rehash]
  simp only [hround, hshift, bind, Option.bind, hfit, if_false]
  exact hrun

theorem rehash_rounds {wanted : ℕ} (hop : m.rehash wanted = some m') :
    ∃ k ≤ 63, roundUpToPowerOfTwo wanted = some (1 <<< k) ∧ wanted ≤ 1 <<< k ∧
      ¬ (1 <<< k) * 8 % UInt64.size < (1 <<< k) * 8 := by
  rw [HashMap.rehash] at hop
  cases hround : roundUpToPowerOfTwo wanted with
  | none =>
    rw [hround] at hop
    cases hop
  | some count =>
    obtain ⟨hwanted, k, hk, rfl⟩ := roundUpLoop_eq (.inr ⟨4, by decide, rfl⟩) hround
    have hshift : shiftLoop (1 <<< k) 65 0 = some k := shiftLoop_eq (Nat.zero_le k) (by omega)
    refine ⟨k, hk, rfl, hwanted, fun hcut => ?_⟩
    simp only [hround, hshift, bind, Option.bind, hcut, if_true] at hop
    cases hop

theorem Chains.rehash {wanted : ℕ} (h : Chains m chain) (hop : m.rehash wanted = some m') :
    ∃ chain', Chains m' chain' ∧ wanted ≤ m'.bucketCount ∧ m'.bucketCount ≠ 0 ∧
      (nodes chain' m'.bucketCount).Perm (nodes chain m.bucketCount) ∧ m'.size = m.size := by
  obtain ⟨k, hk, hround, hwanted, hfit⟩ := rehash_rounds hop
  obtain ⟨m₁, chain', hrun, hchains, hcount, hperm, -, -, -, hsize, -⟩ := h.rehash_eq hk hround hfit
  cases hop.symm.trans hrun
  refine ⟨chain', hchains, ?_, ?_, hperm, hsize⟩
  · rw [hcount]
    exact hwanted
  · rw [hcount, shiftLeft_eq, Nat.one_mul]
    exact Nat.pos_iff_ne_zero.mp (Nat.two_pow_pos k)

theorem Chains.rehash_total {wanted : ℕ} (h : Chains m chain) (hwanted : wanted ≤ 1 <<< 60) :
    ∃ m' chain', m.rehash wanted = some m' ∧ Chains m' chain' ∧ m'.bucketCount ≠ 0 ∧
      (nodes chain' m'.bucketCount).Perm (nodes chain m.bucketCount) ∧ m'.hash = m.hash ∧
      m'.value = m.value ∧ m'.allocated = m.allocated ∧ m'.size = m.size ∧
      m'.hasher = m.hasher ∧ m'.equal = m.equal := by
  obtain ⟨k, hk, hround⟩ : ∃ k ≤ 60, roundUpLoop wanted 65 (1 <<< 4) = some (1 <<< k) :=
    roundUpLoop_total (by decide) hwanted (by decide) (by decide)
  have hfit : ¬ (1 <<< k) * 8 % UInt64.size < (1 <<< k) * 8 := by
    have hlt : (1 <<< k) * 8 < UInt64.size := by
      rw [shiftLeft_eq, Nat.one_mul, show 8 = 2 ^ 3 by rfl, ← Nat.pow_add]
      exact Nat.pow_lt_pow_right (by decide) (by omega : k + 3 < 64)
    rw [mod_eq_of_lt hlt]
    exact Nat.lt_irrefl _
  obtain ⟨m', chain', hrun, hchains, hcount, hsame⟩ := h.rehash_eq (by omega) hround hfit
  refine ⟨m', chain', hrun, hchains, ?_, hsame⟩
  rw [hcount, shiftLeft_eq, Nat.one_mul]
  exact Nat.pos_iff_ne_zero.mp (Nat.two_pow_pos k)

section

variable (h : Holds m chain)
include h

theorem Holds.rehash {wanted : ℕ} (hop : m.rehash wanted = some m') :
    ∃ chain', Holds m' chain' ∧ wanted ≤ m'.bucketCount ∧ m'.bucketCount ≠ 0 ∧
      m'.size = m.size := by
  obtain ⟨chain', hchains, hwanted, hcount, hperm, hsize⟩ := h.toChains.rehash hop
  exact ⟨chain', ⟨hchains, hsize.trans (h.size.trans hperm.length_eq.symm)⟩, hwanted, hcount, hsize⟩

theorem Holds.reserve (hop : m.reserve count = some m') : ∃ chain', Holds m' chain' := by
  rw [HashMap.reserve] at hop
  split at hop
  · obtain ⟨chain', hholds, -⟩ := h.rehash hop
    exact ⟨chain', hholds⟩
  · cases hop
    exact ⟨chain, h⟩

theorem Holds.newNode (hash : UInt64) (key : K) (value : V) :
    Holds (m.newNode hash key value) chain := by
  have hne : ∀ b < m.bucketCount, ∀ x ∈ chain b, x ≠ m.allocated := fun b hb x hx =>
    Nat.ne_of_lt (h.bounded b hb x hx)
  refine ⟨⟨fun b hb => ?_, fun b hb x hx => ?_, fun b hb x hx => ?_, h.table⟩, h.size⟩
  · exact (h.linked b hb).update fun hin => hne b hb _ hin rfl
  · have hsame : (m.newNode hash key value).hash x = m.hash x :=
      update_of_ne (hne b hb x hx) ..
    rw [hsame]
    exact h.placed b hb x hx
  · exact lt_succ_of_lt (h.bounded b hb x hx)

theorem Holds.linkNode (hcount : m.bucketCount ≠ 0) (hash : UInt64) (key : K) (value : V) :
    Holds (m.linkNode hash key value).1 (update chain
      (bucketOf m.bucketShift hash) (m.allocated :: chain (bucketOf m.bucketShift hash))) := by
  have hnew := h.newNode hash key value
  have hb := hnew.bucketOf_lt hcount hash
  have hfresh : m.allocated ∉ nodes chain (m.newNode hash key value).bucketCount := by
    intro hin
    obtain ⟨b, hb, hxb⟩ := mem_nodes.mp hin
    exact absurd (h.bounded b hb _ hxb) (Nat.lt_irrefl _)
  have hplace : bucketOf (m.newNode hash key value).bucketShift
      ((m.newNode hash key value).hash m.allocated) = bucketOf m.bucketShift hash :=
    congrArg (bucketOf m.bucketShift) (update_self ..)
  have hpush := hnew.pushFront hb hfresh hplace (lt_succ_self _)
  refine ⟨⟨hpush.linked, hpush.placed, hpush.bounded, hpush.table⟩, ?_⟩
  have hlength : (nodes (update chain (bucketOf m.bucketShift hash)
      (m.allocated :: chain (bucketOf m.bucketShift hash))) m.bucketCount).length =
        (nodes chain m.bucketCount).length + 1 := (nodes_push_perm hb).length_eq
  exact (congrArg (· + 1) hnew.size).trans hlength.symm

theorem Holds.link {hash : UInt64} {key : K} {value : V} {node : ℕ}
    (hop : m.link hash key value = some (m', node)) : ∃ chain', Holds m' chain' := by
  rw [HashMap.link] at hop
  split at hop
  · cases hrehash : m.rehash (m.size + 1) with
    | none =>
      rw [hrehash] at hop
      cases hop
    | some m₁ =>
      obtain ⟨chain₁, h₁, -, hcount, -⟩ := h.rehash hrehash
      rw [hrehash] at hop
      cases hop
      exact ⟨_, h₁.linkNode hcount hash key value⟩
  · cases hop
    exact ⟨_, h.linkNode (by omega) hash key value⟩

end

end Equilibrium.ChainedHashMap
