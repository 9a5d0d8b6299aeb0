import Equilibrium.Containers.ChainedHashMapRuns
import Equilibrium.Library.Calls
import Equilibrium.Library.FiniteMap

/-! The hash map refines the finite map that its calls define. Beside each value the finite
map has the address of the node, so that it also says which nodes stay where they are. -/

namespace Equilibrium.ChainedHashMap

open Library Library.LinkedChain Function List
open FiniteMap (empty erase_of_none lookup_eq_none)
open Prod (snd)

variable {K V : Type}

def entryAt (m : HashMap K V) (x : ℕ) : K × (ℕ × V) := ((m.value x).1, x, (m.value x).2)

structure Represents [BEq K] [Hashable K] (m : HashMap K V) (chain : ℕ → List ℕ)
    (a : FiniteMap K (ℕ × V)) : Prop extends Holds m chain where
  entries : ((nodes chain m.bucketCount).map (entryAt m)).Perm a.entries
  hashed : ∀ x ∈ nodes chain m.bucketCount, m.hash x = hash (m.value x).1
  hasher : m.hasher = hash
  equal : m.equal = (· == ·)

variable {m m' other : HashMap K V} {chain : ℕ → List ℕ} {p via : Option ℕ} {l : List ℕ}
  {rounds x : ℕ}

theorem matchLoop_eq {h : UInt64} {key : K} (hchain : Segment m.next p l none)
    (hrounds : l.length < rounds) : ∃ found, m.matchLoop h key rounds via p = some found ∧
      ((found = none ∧ ∀ x ∈ l, ¬ (m.hash x = h ∧ m.equal (m.value x).1 key = true)) ∨
        ∃ a x c, l = a ++ x :: c ∧ found = some (lastLink via a, x) ∧
          m.equal (m.value x).1 key = true) := by
  induction l generalizing p via rounds with
  | nil =>
    obtain _ | rounds := rounds
    · omega
    rw [segment_nil.mp hchain]
    exact ⟨none, rfl, .inl ⟨rfl, forall_mem_nil _⟩⟩
  | cons y l ih =>
    obtain _ | rounds := rounds
    · omega
    obtain ⟨rfl, hrest⟩ := hchain
    rw [HashMap.matchLoop]
    by_cases hy : m.hash y = h ∧ m.equal (m.value y).1 key = true
    · rw [if_pos hy]
      exact ⟨_, rfl, .inr ⟨[], y, l, rfl, rfl, hy.2⟩⟩
    · rw [if_neg hy]
      obtain ⟨found, hloop, ⟨hfound, hnone⟩ | ⟨a, x, c, rfl, rfl, hx⟩⟩ :=
        @ih _ (some y) _ hrest (Nat.lt_of_succ_lt_succ hrounds)
      · exact ⟨found, hloop, .inl ⟨hfound, forall_mem_cons.mpr ⟨hy, hnone⟩⟩⟩
      · exact ⟨_, hloop, .inr ⟨y :: a, x, c, rfl, by rw [lastLink_cons], hx⟩⟩

theorem copyLoop_eq {chain₀ : ℕ → List ℕ} (ho : Chains other chain₀) {l r : List ℕ}
    (hsplit : nodes chain₀ other.bucketCount = l ++ r) (hrounds : r.length < rounds)
    (hall : ((r.map other.value).foldlM (fun m e => do
      let (m, _, _) ← HashMap.emplace m e.1 e.2
      some m) m) = some m') : HashMap.copyLoop other rounds m r.head? = some m' := by
  induction r generalizing l m rounds with
  | nil =>
    obtain _ | rounds := rounds
    · omega
    exact hall
  | cons x r ih =>
    obtain _ | rounds := rounds
    · omega
    have hnext := ho.nextNode hsplit
    rw [append_cons] at hsplit
    rw [map_cons, foldlM_cons] at hall
    rw [head?_cons, HashMap.copyLoop]
    cases hop : m.emplace (other.value x).1 (other.value x).2 with
    | none =>
      rw [hop] at hall
      exact absurd hall (Option.some_ne_none m').symm
    | some made =>
      rw [hop] at hall
      simp only [Option.bind, hnext]
      exact ih hsplit (Nat.lt_of_succ_lt_succ hrounds) hall

section Represents

variable [BEq K] [Hashable K] {a : FiniteMap K (ℕ × V)}

theorem Represents.mem_entries (h : Represents m chain a) {e : K × (ℕ × V)} :
    e ∈ a.entries ↔ ∃ x ∈ nodes chain m.bucketCount, entryAt m x = e := by
  rw [← h.entries.mem_iff, mem_map]

theorem Represents.size_eq (h : Represents m chain a) : m.size = a.card := by
  rw [h.size, FiniteMap.card, ← h.entries.length_eq, length_map]

theorem represents_empty (hcount : m.bucketCount = 0) (hsize : m.size = 0)
    (hhasher : m.hasher = hash) (hequal : m.equal = (· == ·)) :
    Represents m (fun _ => []) empty := by
  have hnodes : nodes (fun _ => []) m.bucketCount = [] :=
    flatMap_eq_nil_iff.mpr fun _ _ => rfl
  refine ⟨holds_empty hcount hsize, ?_, ?_, hhasher, hequal⟩
  · rw [hnodes]
    exact .refl _
  · rw [hnodes]
    exact forall_mem_nil _

section

variable (h : Represents m chain a)
include h

theorem Represents.clear : Represents m.clear (fun _ => []) empty := by
  have hnodes : nodes (fun _ => []) m.clear.bucketCount = [] :=
    flatMap_eq_nil_iff.mpr fun _ _ => rfl
  refine ⟨h.toHolds.clear, ?_, ?_, h.hasher, h.equal⟩
  · rw [hnodes]
    exact .refl _
  · rw [hnodes]
    exact forall_mem_nil _

theorem Represents.of_perm {chain' : ℕ → List ℕ} (hchains : Chains m' chain')
    (hperm : (nodes chain' m'.bucketCount).Perm (nodes chain m.bucketCount))
    (hhash : m'.hash = m.hash) (hvalue : m'.value = m.value) (hsize : m'.size = m.size)
    (hhasher : m'.hasher = m.hasher) (hequal : m'.equal = m.equal) : Represents m' chain' a := by
  have hentry : entryAt m' = entryAt m := funext fun x => by rw [entryAt, entryAt, hvalue]
  refine ⟨⟨hchains, ?_⟩, ?_, fun x hx => ?_, hhasher.trans h.hasher, hequal.trans h.equal⟩
  · rw [hsize, h.size, hperm.length_eq]
  · rw [hentry]
    exact (hperm.map _).trans h.entries
  · rw [hhash, hvalue]
    exact h.hashed x (hperm.mem_iff.mp hx)

theorem Represents.rehash {wanted : ℕ} (hwanted : wanted ≤ 1 <<< 60) :
    ∃ m' chain', m.rehash wanted = some m' ∧ Represents m' chain' a ∧ m'.bucketCount ≠ 0 ∧
      m'.size = m.size ∧ m'.allocated = m.allocated := by
  obtain ⟨m', chain', hop, hchains, hcount, hperm, hhash, hvalue, hallocated, hsize, hhasher,
    hequal⟩ := h.toChains.rehash_total hwanted
  exact ⟨m', chain', hop, h.of_perm hchains hperm hhash hvalue hsize hhasher hequal, hcount,
    hsize, hallocated⟩

theorem Represents.reserve {count : ℕ} (hcount : count ≤ 1 <<< 60 ∨ count ≤ m.bucketCount) :
    ∃ m' chain', m.reserve count = some m' ∧ Represents m' chain' a := by
  rw [HashMap.reserve]
  by_cases hgt : count > m.bucketCount
  · obtain ⟨m', chain', hop, h', -⟩ := h.rehash (hcount.resolve_right (Nat.not_le_of_gt hgt))
    exact ⟨m', chain', by rw [if_pos hgt, hop], h'⟩
  · exact ⟨m, chain, if_neg hgt, h⟩

theorem Represents.linkNode (hcount : m.bucketCount ≠ 0) (key : K) (value : V)
    (hnone : a.lookup key = none) : ∃ chain',
      Represents (m.linkNode (hash key) key value).1 chain'
        (a.insertNew key (m.allocated, value)) := by
  have hb := h.bucketOf_lt hcount (hash key)
  have hfresh : ∀ x ∈ nodes chain m.bucketCount, x ≠ m.allocated := by
    intro x hx
    obtain ⟨b, hb, hxb⟩ := mem_nodes.mp hx
    exact Nat.ne_of_lt (h.bounded b hb x hxb)
  have hperm := @nodes_push_perm chain _ _ m.allocated hb
  have hnew : (m.linkNode (hash key) key value).1.value m.allocated = (key, value) :=
    update_self ..
  have hold : ∀ x ∈ nodes chain m.bucketCount,
      (m.linkNode (hash key) key value).1.value x = m.value x := fun x hx =>
    update_of_ne (hfresh x hx) ..
  refine ⟨_, h.toHolds.linkNode hcount (hash key) key value, ?_, fun x hx => ?_, h.hasher, h.equal⟩
  · rw [FiniteMap.insertNew_of_none hnone]
    refine (hperm.map _).trans ?_
    rw [map_cons, entryAt, hnew]
    refine (List.Perm.cons _ ?_).trans (perm_append_singleton _ _).symm
    rw [map_congr_left fun x hx => show _ = entryAt m x by rw [entryAt, entryAt, hold x hx]]
    exact h.entries
  · rcases mem_cons.mp (hperm.mem_iff.mp hx) with rfl | hx
    · rw [hnew]
      exact update_self ..
    · rw [hold x hx, ← h.hashed x hx]
      exact update_of_ne (hfresh x hx) ..

theorem Represents.setSecond [EquivBEq K] (hx : x ∈ nodes chain m.bucketCount) {key : K}
    (hkey : ((m.value x).1 == key) = true) (value : V) :
    Represents (m.setSecond x value) chain (a.replace key (x, value)) := by
  obtain ⟨l, r, hsplit⟩ := append_of_mem hx
  have hnodup := h.nodup
  rw [hsplit] at hnodup
  have hnot := (nodup_middle.mp hnodup).notMem
  have hother : ∀ y ∈ l ++ r, entryAt (m.setSecond x value) y = entryAt m y := by
    intro y hy
    have hyx : (m.setSecond x value).value y = m.value y :=
      update_of_ne (ne_of_mem_of_not_mem hy hnot) ..
    rw [entryAt, entryAt, hyx]
  have hself : entryAt (m.setSecond x value) x = ((m.value x).1, x, value) := by
    rw [entryAt, show (m.setSecond x value).value x = _ from update_self ..]
  have hentries := h.entries
  rw [hsplit, map_append] at hentries
  refine ⟨h.toHolds.setSecond x value, ?_, fun y hy => ?_, h.hasher, h.equal⟩
  · rw [show (m.setSecond x value).bucketCount = m.bucketCount from rfl, hsplit, map_append,
      map_cons, hself,
      map_congr_left fun y hy => hother y (mem_append_left r hy),
      map_congr_left fun y hy => hother y (mem_append_right l hy)]
    exact FiniteMap.perm_replace hentries hkey (x, value)
  · have hfirst : ((m.setSecond x value).value y).1 = (m.value y).1 := by
      by_cases hyx : y = x
      · subst hyx
        rw [show (m.setSecond y value).value y = _ from update_self ..]
      · rw [show (m.setSecond x value).value y = m.value y from update_of_ne hyx ..]
    rw [hfirst]
    exact h.hashed y hy

theorem Represents.erase [EquivBEq K] {chain' : ℕ → List ℕ} {l r : List ℕ}
    (hsplit : nodes chain m.bucketCount = l ++ x :: r) (hholds : Holds m' chain')
    (hnodes : nodes chain' m'.bucketCount = l ++ r) (hvalue : m'.value = m.value)
    (hhash : m'.hash = m.hash) (hhasher : m'.hasher = m.hasher) (hequal : m'.equal = m.equal)
    {key : K} (hkey : ((m.value x).1 == key) = true) : Represents m' chain' (a.erase key) := by
  have hentry : entryAt m' = entryAt m := funext fun y => by rw [entryAt, entryAt, hvalue]
  refine ⟨hholds, ?_, fun y hy => ?_, hhasher.trans h.hasher, hequal.trans h.equal⟩
  · rw [hnodes, hentry]
    have hentries := h.entries
    rw [hsplit] at hentries
    exact FiniteMap.perm_erase ((perm_middle.symm.map (entryAt m)).trans hentries) hkey
  · rw [hnodes] at hy
    rw [hhash, hvalue]
    refine h.hashed y ?_
    rw [hsplit]
    exact perm_middle.mem_iff.mpr (mem_cons_of_mem x hy)

theorem Represents.nodes_nil (hcount : m.bucketCount = 0) (key : K) : a.lookup key = none := by
  refine lookup_eq_none.mpr fun e he => ?_
  obtain ⟨x, hx, -⟩ := h.mem_entries.mp he
  rw [hcount] at hx
  cases hx

theorem Represents.lookup_of_mem [EquivBEq K] (hx : x ∈ nodes chain m.bucketCount) {key : K}
    (hkey : ((m.value x).1 == key) = true) : a.lookup key = some (x, (m.value x).2) :=
  FiniteMap.lookup_eq_some (h.mem_entries.mpr ⟨x, hx, rfl⟩) hkey

end

section Lookup

variable [LawfulHashable K]

theorem Represents.matchLoop (h : Represents m chain a) (hcount : m.bucketCount ≠ 0) (key : K) :
    ∃ found, m.matchLoop (hash key) key (m.allocated + 1) none
        (m.buckets (bucketOf m.bucketShift (hash key))) = some found ∧
      ((found = none ∧ a.lookup key = none) ∨
        ∃ l x r, chain (bucketOf m.bucketShift (hash key)) = l ++ x :: r ∧
          found = some (lastLink none l, x) ∧ ((m.value x).1 == key) = true) := by
  have hb := h.bucketOf_lt hcount (hash key)
  obtain ⟨found, hloop, ⟨hfound, hnone⟩ | ⟨l, x, r, hchain, hfound, hx⟩⟩ :=
    @matchLoop_eq _ _ m _ none _ _ (hash key) key (h.linked _ hb)
      (Nat.lt_succ_of_le (h.length_le hb))
  · refine ⟨found, hloop, .inl ⟨hfound, lookup_eq_none.mpr fun e he => ?_⟩⟩
    obtain ⟨x, hx, rfl⟩ := h.mem_entries.mp he
    cases hkey : (m.value x).1 == key with
    | false => exact hkey
    | true =>
      -- equal keys have equal hashes, so the node would be in this chain
      have hhash : m.hash x = hash key := (h.hashed x hx).trans (hash_eq hkey)
      obtain ⟨b, hb', hxb⟩ := mem_nodes.mp hx
      have hplace := h.placed b hb' x hxb
      rw [hhash] at hplace
      subst hplace
      exact absurd ⟨hhash, by rw [h.equal]; exact hkey⟩ (hnone x hxb)
  · rw [h.equal] at hx
    exact ⟨found, hloop, .inr ⟨l, x, r, hchain, hfound, hx⟩⟩

variable [EquivBEq K]

theorem Represents.findNode (h : Represents m chain a) (key : K) : ∃ found,
    m.findNode key (m.hasher key) = some found ∧
      ((found = none ∧ a.lookup key = none) ∨ ∃ x ∈ nodes chain m.bucketCount, found = some x ∧
        ((m.value x).1 == key) = true ∧ a.lookup key = some (x, (m.value x).2)) := by
  rw [HashMap.findNode, h.hasher]
  by_cases hcount : m.bucketCount = 0
  · rw [if_pos hcount]
    exact ⟨none, rfl, .inl ⟨rfl, h.nodes_nil hcount key⟩⟩
  · rw [if_neg hcount]
    obtain ⟨found, hloop, ⟨rfl, hnone⟩ | ⟨l, x, r, hchain, rfl, hkey⟩⟩ := h.matchLoop hcount key
    · exact ⟨none, by rw [hloop]; rfl, .inl ⟨rfl, hnone⟩⟩
    · have hx : x ∈ nodes chain m.bucketCount := mem_nodes.mpr ⟨_, h.bucketOf_lt hcount _, by
        rw [hchain]
        exact mem_append_right _ mem_cons_self⟩
      exact ⟨some x, by rw [hloop]; rfl, .inr ⟨x, hx, rfl, hkey, h.lookup_of_mem hx hkey⟩⟩

end Lookup

/-- What an insertion may do: nothing where the key is, or a node comes in at a new address. -/
def Inserts (a : FiniteMap K (ℕ × V)) (key : K) (value : V) (x : ℕ) (inserted : Bool)
    (a' : FiniteMap K (ℕ × V)) : Prop :=
  (∃ v, a.lookup key = some (x, v) ∧ inserted = false ∧ a' = a) ∨
    (a.lookup key = none ∧ (∀ e ∈ a.entries, e.2.1 ≠ x) ∧ inserted = true ∧
      a' = a.insertNew key (x, value))

section Inserts

variable {a' : FiniteMap K (ℕ × V)} {key : K} {value : V} {inserted : Bool}

section

omit [Hashable K]

theorem Inserts.contents (h : Inserts a key value x inserted a') :
    a'.map snd = (a.map snd).insertNew key value := by
  rcases h with ⟨v, hlookup, -, rfl⟩ | ⟨-, -, -, rfl⟩
  · have hcontents : (a'.map snd).lookup key = some v := by
      rw [FiniteMap.lookup_map, hlookup]
      rfl
    rw [FiniteMap.insertNew_of_some (by rw [hcontents]; exact Option.some_ne_none v)]
  · exact (FiniteMap.insertNew_map a snd key (x, value)).symm

theorem Inserts.card_le (h : Inserts a key value x inserted a') : a'.card ≤ a.card + 1 := by
  rcases h with ⟨v, -, -, rfl⟩ | ⟨hnone, -, -, rfl⟩
  · exact Nat.le_succ _
  · rw [FiniteMap.card, FiniteMap.insertNew_of_none hnone, length_append]
    exact Nat.le_refl _

end

end Inserts

section

variable (h : Represents m chain a)
include h

theorem Represents.ne_allocated {e : K × (ℕ × V)} (he : e ∈ a.entries) : e.2.1 ≠ m.allocated := by
  obtain ⟨x, hx, rfl⟩ := h.mem_entries.mp he
  obtain ⟨b, hb, hxb⟩ := mem_nodes.mp hx
  exact Nat.ne_of_lt (h.bounded b hb x hxb)

theorem Represents.link (hsize : m.size < 1 <<< 60) (key : K) (value : V)
    (hnone : a.lookup key = none) : ∃ m' chain',
      m.link (hash key) key value = some (m', m.allocated) ∧
        Represents m' chain' (a.insertNew key (m.allocated, value)) := by
  rw [HashMap.link]
  by_cases hfull : m.size + 1 > m.bucketCount
  · obtain ⟨m₁, chain₁, hop, h₁, hcount, -, hallocated⟩ := h.rehash hsize
    obtain ⟨chain', h'⟩ := h₁.linkNode hcount key value hnone
    rw [hallocated] at h'
    refine ⟨_, chain', ?_, h'⟩
    rw [if_pos hfull, hop, ← hallocated]
    rfl
  · obtain ⟨chain', h'⟩ := h.linkNode (by omega) key value hnone
    exact ⟨_, chain', if_neg hfull, h'⟩

theorem Represents.eraseAt [EquivBEq K] (hx : x ∈ nodes chain m.bucketCount) :
    ∃ m' next chain', m.eraseAt x = some (m', next) ∧
      Represents m' chain' (a.erase (m.value x).1) ∧
      ∀ y ∈ next, ∃ e ∈ (a.erase (m.value x).1).entries, e.2.1 = y := by
  obtain ⟨l, r, hsplit⟩ := append_of_mem hx
  obtain ⟨m', chain', hop, hholds, hnodes, hvalue, hhash, hhasher, hequal⟩ :=
    h.toHolds.eraseAt hsplit
  have h' := h.erase hsplit hholds hnodes hvalue hhash hhasher hequal BEq.rfl
  refine ⟨m', r.head?, chain', hop, h', fun y hy => ?_⟩
  refine ⟨entryAt m' y, h'.mem_entries.mpr ⟨y, ?_, rfl⟩, rfl⟩
  rw [hnodes]
  exact mem_append_right _ (mem_of_head? hy)

end

section Calls

variable [EquivBEq K] [LawfulHashable K]

theorem Represents.emplace (h : Represents m chain a) (hsize : m.size < 1 <<< 60) (key : K)
    (value : V) : ∃ m' x inserted chain' a', m.emplace key value = some (m', x, inserted) ∧
      Represents m' chain' a' ∧ Inserts a key value x inserted a' := by
  obtain ⟨found, hfind, ⟨rfl, hnone⟩ | ⟨x, hx, rfl, hkey, hlookup⟩⟩ := h.findNode key
  · obtain ⟨m', chain', hlink, h'⟩ := h.link hsize key value hnone
    refine ⟨m', m.allocated, true, chain', _, ?_, h',
      .inr ⟨hnone, fun e he => h.ne_allocated he, rfl, rfl⟩⟩
    rw [HashMap.emplace, hfind, h.hasher]
    simp only [bind, Option.bind, hlink]
  · refine ⟨m, x, false, chain, a, ?_, h, .inl ⟨_, hlookup, rfl, rfl⟩⟩
    rw [HashMap.emplace, hfind]
    rfl

theorem Represents.insertOrAssign (h : Represents m chain a) (hsize : m.size < 1 <<< 60) (key : K)
    (value : V) : ∃ m' x inserted chain' a',
      m.insertOrAssign key value = some (m', x, inserted) ∧
        Represents m' chain' (a'.replace key (x, value)) ∧ Inserts a key value x inserted a' := by
  obtain ⟨found, hfind, ⟨rfl, hnone⟩ | ⟨x, hx, rfl, hkey, hlookup⟩⟩ := h.findNode key
  · obtain ⟨m', x, inserted, chain', a', hop, h', hinserts⟩ := h.emplace hsize key value
    refine ⟨m', x, inserted, chain', a', ?_, ?_, hinserts⟩
    · rw [HashMap.insertOrAssign, hfind]
      exact hop
    · rcases hinserts with ⟨v, hlookup, -⟩ | ⟨-, -, -, rfl⟩
      · exact absurd (hnone.symm.trans hlookup) (Option.some_ne_none _).symm
      · rwa [FiniteMap.replace_insertNew hnone]
  · refine ⟨m.setSecond x value, x, false, chain, a, ?_, h.setSecond hx hkey value,
      .inl ⟨_, hlookup, rfl, rfl⟩⟩
    rw [HashMap.insertOrAssign, hfind]
    rfl

theorem Represents.eraseKey (h : Represents m chain a) (key : K) : ∃ m' chain',
    m.eraseKey key = some (m', (a.lookup key).isSome.toNat) ∧
      Represents m' chain' (a.erase key) := by
  rw [HashMap.eraseKey]
  by_cases hcount : m.bucketCount = 0
  · have hnone := h.nodes_nil hcount key
    refine ⟨m, chain, ?_, ?_⟩
    · rw [if_pos hcount, hnone]
      rfl
    · rwa [erase_of_none hnone]
  · obtain ⟨found, hloop, ⟨rfl, hnone⟩ | ⟨l, x, r, hchain, rfl, hkey⟩⟩ := h.matchLoop hcount key
    · refine ⟨m, chain, ?_, ?_⟩
      · rw [if_neg hcount, h.hasher]
        simp only [Option.bind, hloop, hnone]
        rfl
      · rwa [erase_of_none hnone]
    · have hb := h.bucketOf_lt hcount (hash key)
      have hsplit : nodes chain m.bucketCount =
          (nodes chain (bucketOf m.bucketShift (hash key)) ++ l) ++
            x :: (r ++ following chain m.bucketCount (bucketOf m.bucketShift (hash key))) := by
        rw [nodes_split hb, hchain, append_assoc, append_assoc, cons_append]
      have hx : x ∈ nodes chain m.bucketCount := by
        rw [hsplit]
        exact mem_append_right _ mem_cons_self
      refine ⟨_, _, ?_, h.erase hsplit (h.unlink hb hchain) ?_ (unlink_value ..) (unlink_hash ..)
        (unlink_hasher ..) (unlink_equal ..) hkey⟩
      · rw [if_neg hcount, h.hasher, h.lookup_of_mem hx hkey]
        simp only [Option.bind, hloop]
        rfl
      · rw [unlink_bucketCount, nodes_update hb, append_assoc, append_assoc]

theorem Represents.emplaceAll (h : Represents m chain a) (entries : List (K × V))
    (hsize : m.size + entries.length ≤ 1 <<< 60) : ∃ m' chain' a',
      entries.foldlM (fun m e => do
        let (m, _, _) ← HashMap.emplace m e.1 e.2
        some m) m = some m' ∧ Represents m' chain' a' ∧
      a'.map snd = (a.map snd).insertAll entries := by
  induction entries generalizing m chain a with
  | nil => exact ⟨m, chain, a, rfl, h, rfl⟩
  | cons e entries ih =>
    rw [length_cons] at hsize
    obtain ⟨m₁, x, inserted, chain₁, a₁, hop, h₁, hinserts⟩ :=
      h.emplace (Nat.lt_of_lt_of_le (by omega) hsize) e.1 e.2
    have hcard := hinserts.card_le
    rw [← h.size_eq, ← h₁.size_eq] at hcard
    obtain ⟨m', chain', a', hrest, h', hcontents⟩ := ih h₁ (by omega)
    refine ⟨m', chain', a', ?_, h', ?_⟩
    · rw [foldlM_cons, hop]
      exact hrest
    · rw [hcontents, hinserts.contents]
      rfl

theorem Represents.copyFrom {chain₀ : ℕ → List ℕ} {b : FiniteMap K (ℕ × V)}
    (ho : Represents other chain₀ b) (h : Represents m chain empty)
    (hsize : other.size ≤ 1 <<< 60) : ∃ m' chain' a', m.copyFrom other = some m' ∧
      Represents m' chain' a' ∧ (a'.map snd).entries.Perm (b.map snd).entries := by
  obtain ⟨m₁, chain₁, hreserve, h₁⟩ := h.reserve (.inl hsize)
  have hempty : m₁.size = 0 := h₁.size_eq
  have hlength : ((nodes chain₀ other.bucketCount).map other.value).length = other.size := by
    rw [length_map, ho.size]
  obtain ⟨m', chain', a', hall, h', hcontents⟩ :=
    h₁.emplaceAll ((nodes chain₀ other.bucketCount).map other.value)
      (by rw [hlength]; omega)
  have hcopied : ((nodes chain₀ other.bucketCount).map other.value).Perm
      (b.map snd).entries := by
    have hmap := ho.entries.map fun e : K × (ℕ × V) => (e.1, e.2.2)
    rwa [List.map_map] at hmap
  have hdistinct := FiniteMap.distinct_of_perm hcopied
  have hrounds : (nodes chain₀ other.bucketCount).length < other.allocated + 1 := by
    have hsub : nodes chain₀ other.bucketCount ⊆ range other.allocated := fun x hx => by
      obtain ⟨b, hb, hxb⟩ := mem_nodes.mp hx
      exact mem_range.mpr (ho.bounded b hb x hxb)
    have hle := (subperm_of_subset ho.nodup hsub).length_le
    rw [length_range] at hle
    omega
  refine ⟨m', chain', a', ?_, h', ?_⟩
  · have hloop := @copyLoop_eq K V m₁ m' other _ chain₀ ho.toChains [] _ rfl hrounds hall
    rw [HashMap.copyFrom, hreserve, ho.firstNode]
    exact hloop
  · rw [hcontents, FiniteMap.entries_insertAll hdistinct]
    exact hcopied

end Calls

end Represents

/-- The calls on the maps that a program has; the place in the memory where a new map goes is
given. `insert` and `try_emplace` are `emplace`. -/
inductive Call (ι K V : Type) where
  | construct (i : ι) (memory : HashMap K V)
  | constructList (i : ι) (memory : HashMap K V) (entries : List (K × V))
  | copyConstruct (i j : ι) (memory : HashMap K V)
  | moveConstruct (i j : ι)
  | copyAssign (i j : ι)
  | moveAssign (i j : ι)
  | find (i : ι) (key : K)
  | emplace (i : ι) (key : K) (value : V)
  | insertOrAssign (i : ι) (key : K) (value : V)
  | subscript (i : ι) (key : K)
  | store (i : ι) (x : ℕ) (value : V)
  | eraseKey (i : ι) (key : K)
  | eraseAt (i : ι) (x : ℕ)
  | reserve (i : ι) (count : ℕ)
  | clear (i : ι)

inductive Reply (V : Type) where
  | done
  | found (entry : Option (ℕ × V))
  | inserted (x : ℕ) (inserted : Bool)
  | erased (count : ℕ)
  | next (x : Option ℕ)

/-- `HashMap()` with the hasher and the equality of its type. -/
def HashMap.made [BEq K] [Hashable K] (memory : HashMap K V) : HashMap K V :=
  construct { memory with hasher := Hashable.hash, equal := (· == ·) }

/-- `HashMap(std::initializer_list<Pair<K, V>> entries)` -/
def HashMap.ofEntries [BEq K] [Hashable K] (memory : HashMap K V) (entries : List (K × V)) :
    Option (HashMap K V) := do
  let m ← memory.made.reserve entries.length
  entries.foldlM (fun m e => do
    let (m, _, _) ← HashMap.emplace m e.1 e.2
    some m) m

def HashMap.iterate (m : HashMap K V) : ℕ → Option ℕ → Option (List ℕ)
  | 0, _ => none
  | _ + 1, none => some []
  | rounds + 1, some x => do
    let rest ← m.iterate rounds (m.nextNode x)
    some (x :: rest)

theorem iterate_eq {chain : ℕ → List ℕ} (h : Holds m chain) {l r : List ℕ}
    (hsplit : nodes chain m.bucketCount = l ++ r) {rounds : ℕ} (hrounds : r.length < rounds) :
    m.iterate rounds r.head? = some r := by
  induction r generalizing l rounds with
  | nil =>
    obtain _ | rounds := rounds
    · omega
    rfl
  | cons x r ih =>
    obtain _ | rounds := rounds
    · omega
    have hnext := h.nextNode hsplit
    rw [append_cons] at hsplit
    have hrest := ih hsplit (Nat.lt_of_succ_lt_succ hrounds)
    rw [head?_cons, HashMap.iterate, hnext]
    simp only [bind, Option.bind, hrest]

section Runs

variable {ι : Type} [DecidableEq ι] [BEq K] [Hashable K]

/-- One call on the maps `w`; nothing where it does not return or writes past a block. -/
def call [Inhabited V] (w : ι → HashMap K V) : Call ι K V → Option ((ι → HashMap K V) × Reply V)
  | .construct i memory => some (Function.update w i memory.made, .done)
  | .constructList i memory entries => do
    let m ← memory.ofEntries entries
    some (Function.update w i m, .done)
  | .copyConstruct i j memory => do
    let m ← memory.copyConstruct (w j)
    some (Function.update w i m, .done)
  | .moveConstruct i j =>
    some (Function.update (Function.update w i (w j)) j (w j).stolen, .done)
  | .copyAssign i j =>
    if i = j then some (w, .done)
    else do
      let m ← (w i).copyAssign (w j)
      some (Function.update w i m, .done)
  | .moveAssign i j =>
    if i = j then some (w, .done)
    else some (Function.update (Function.update w i (w j)) j (w j).stolen, .done)
  | .find i key => do
    let found ← (w i).findNode key ((w i).hasher key)
    some (w, .found (found.map fun x => (x, ((w i).value x).2)))
  | .emplace i key value => do
    let (m, x, inserted) ← (w i).emplace key value
    some (Function.update w i m, .inserted x inserted)
  | .insertOrAssign i key value => do
    let (m, x, inserted) ← (w i).insertOrAssign key value
    some (Function.update w i m, .inserted x inserted)
  | .subscript i key => do
    let (m, x, inserted) ← (w i).emplace key default
    some (Function.update w i m, .inserted x inserted)
  | .store i x value => some (Function.update w i ((w i).setSecond x value), .done)
  | .eraseKey i key => do
    let (m, count) ← (w i).eraseKey key
    some (Function.update w i m, .erased count)
  | .eraseAt i x => do
    let (m, next) ← (w i).eraseAt x
    some (Function.update w i m, .next next)
  | .reserve i count => do
    let m ← (w i).reserve count
    some (Function.update w i m, .done)
  | .clear i => some (Function.update w i (w i).clear, .done)

def exec [Inhabited V] (w : ι → HashMap K V) (c : Call ι K V) :
    Except Unit ((ι → HashMap K V) × Reply V) :=
  match call w c with
  | some after => .ok after
  | none => .error ()

def Allowed [Inhabited V] (a : ι → FiniteMap K (ℕ × V)) :
    Call ι K V → Reply V → (ι → FiniteMap K (ℕ × V)) → Prop
  | .construct i _, r, a' => r = .done ∧ a' = Function.update a i FiniteMap.empty
  | .constructList i _ entries, r, a' => r = .done ∧ ∃ b,
      b.map Prod.snd = FiniteMap.empty.insertAll entries ∧ a' = Function.update a i b
  | .copyConstruct i j _, r, a' => r = .done ∧ ∃ b,
      (b.map Prod.snd).entries.Perm ((a j).map Prod.snd).entries ∧ a' = Function.update a i b
  | .moveConstruct i j, r, a' => r = .done ∧
      a' = Function.update (Function.update a i (a j)) j FiniteMap.empty
  | .copyAssign i j, r, a' => r = .done ∧ (i = j → a' = a) ∧ (i ≠ j → ∃ b,
      (b.map Prod.snd).entries.Perm ((a j).map Prod.snd).entries ∧ a' = Function.update a i b)
  | .moveAssign i j, r, a' => r = .done ∧ (i = j → a' = a) ∧
      (i ≠ j → a' = Function.update (Function.update a i (a j)) j FiniteMap.empty)
  | .find i key, r, a' => r = .found ((a i).lookup key) ∧ a' = a
  | .emplace i key value, r, a' => ∃ x inserted b, r = .inserted x inserted ∧
      Inserts (a i) key value x inserted b ∧ a' = Function.update a i b
  | .insertOrAssign i key value, r, a' => ∃ x inserted b, r = .inserted x inserted ∧
      Inserts (a i) key value x inserted b ∧ a' = Function.update a i (b.replace key (x, value))
  | .subscript i key, r, a' => ∃ x inserted b, r = .inserted x inserted ∧
      Inserts (a i) key default x inserted b ∧ a' = Function.update a i b
  | .store i x value, r, a' => r = .done ∧ ∃ key v, (a i).lookup key = some (x, v) ∧
      a' = Function.update a i ((a i).replace key (x, value))
  | .eraseKey i key, r, a' => r = .erased ((a i).lookup key).isSome.toNat ∧
      a' = Function.update a i ((a i).erase key)
  | .eraseAt i x, r, a' => ∃ key v next, r = .next next ∧ (a i).lookup key = some (x, v) ∧
      a' = Function.update a i ((a i).erase key) ∧
      ∀ y ∈ next, ∃ e ∈ ((a i).erase key).entries, e.2.1 = y
  | .reserve _ _, r, a' => r = .done ∧ a' = a
  | .clear i, r, a' => r = .done ∧ a' = Function.update a i FiniteMap.empty

/-- An iterator or a reference that a call uses is one into the map. -/
def Legal (w : ι → HashMap K V) : Call ι K V → Prop
  | .store i x _ | .eraseAt i x => (w i).Contains x
  | _ => True

/-- No table for more than `2 ^ 60` elements is asked for. -/
def Fits (w : ι → HashMap K V) : Call ι K V → Prop
  | .constructList _ _ entries => entries.length ≤ 1 <<< 60
  | .copyConstruct _ j _ | .copyAssign _ j => (w j).size ≤ 1 <<< 60
  | .emplace i _ _ | .insertOrAssign i _ _ | .subscript i _ => (w i).size < 1 <<< 60
  | .reserve i count => count ≤ 1 <<< 60 ∨ count ≤ (w i).bucketCount
  | _ => True

/-- What a map shows of the finite map that it stands for. -/
structure Agrees (m : HashMap K V) (a : FiniteMap K (ℕ × V)) : Prop where
  size : m.size = a.card
  iterate : ∃ l, (∀ rounds, m.size < rounds → m.iterate rounds m.firstNode = some l) ∧
    l.Nodup ∧ (∀ x, x ∈ l ↔ m.Contains x) ∧ l.length = m.size ∧ (l.map (entryAt m)).Perm a.entries
  distinct : ∀ {x y}, m.Contains x → m.Contains y → ((m.value x).1 == (m.value y).1) = true → x = y
  placed : ∀ b < m.bucketCount, ∀ x, Reach m.next (m.buckets b) x →
    m.hash x = hash (m.value x).1 ∧ bucketOf m.bucketShift (m.hash x) = b
  find : ∀ key, m.findNode key (m.hasher key) = some ((a.lookup key).map Prod.fst)

variable [EquivBEq K] [LawfulHashable K] {w : ι → HashMap K V} {a : ι → FiniteMap K (ℕ × V)}

theorem Represents.agrees {a : FiniteMap K (ℕ × V)} (h : Represents m chain a) : Agrees m a where
  size := h.size_eq
  iterate := by
    refine ⟨nodes chain m.bucketCount, fun rounds hrounds => ?_, h.nodup,
      fun x => h.contains_iff.symm, h.size.symm, h.entries⟩
    rw [h.firstNode]
    exact iterate_eq h.toHolds (nil_append _).symm (h.size ▸ hrounds)
  distinct {x y} hx hy hkey := by
    have hmem : ∀ {x}, m.Contains x → entryAt m x ∈ a.entries := fun hx =>
      h.mem_entries.mpr ⟨_, h.contains_iff.mp hx, rfl⟩
    have heq : entryAt m x = entryAt m y :=
      FiniteMap.eq_of_pairwise a.distinct (hmem hx) (hmem hy) hkey BEq.rfl
    exact congrArg (fun e => e.2.1) heq
  placed b hb x hx := by
    have hxb := (h.linked b hb).reach_iff.mp hx
    exact ⟨h.hashed x (mem_nodes.mpr ⟨b, hb, hxb⟩), h.placed b hb x hxb⟩
  find key := by
    obtain ⟨found, hfind, ⟨rfl, hnone⟩ | ⟨x, -, rfl, -, hlookup⟩⟩ := h.findNode key
    · rw [hfind, hnone]
      rfl
    · rw [hfind, hlookup]
      rfl

def Corresponds (w : ι → HashMap K V) (a : ι → FiniteMap K (ℕ × V)) : Prop :=
  ∀ i, ∃ chain, Represents (w i) chain (a i)

section

omit [EquivBEq K] [LawfulHashable K]

theorem Corresponds.update (h : Corresponds w a) (i : ι) {b : FiniteMap K (ℕ × V)}
    (hm : Represents m chain b) : Corresponds (Function.update w i m) (Function.update a i b) := by
  intro j
  by_cases hj : j = i
  · subst hj
    rw [update_self, update_self]
    exact ⟨chain, hm⟩
  · rw [update_of_ne hj, update_of_ne hj]
    exact h j

theorem represents_made (memory : HashMap K V) : Represents memory.made (fun _ => []) empty :=
  represents_empty rfl rfl rfl rfl

theorem Represents.stolen {a : FiniteMap K (ℕ × V)} (h : Represents m chain a) :
    Represents m.stolen (fun _ => []) empty :=
  represents_empty rfl rfl h.hasher h.equal

end

theorem Represents.ofEntries (memory : HashMap K V) {entries : List (K × V)}
    (hlength : entries.length ≤ 1 <<< 60) : ∃ m chain a, memory.ofEntries entries = some m ∧
      Represents m chain a ∧ a.map snd = empty.insertAll entries := by
  obtain ⟨m₁, chain₁, hreserve, h₁⟩ := (represents_made memory).reserve (.inl hlength)
  have hempty : m₁.size = 0 := h₁.size_eq
  obtain ⟨m', chain', a', hall, h', hcontents⟩ := h₁.emplaceAll entries (by omega)
  refine ⟨m', chain', a', ?_, h', hcontents⟩
  rw [HashMap.ofEntries, hreserve]
  exact hall

variable [Inhabited V]

theorem Corresponds.call (h : Corresponds w a) (c : Call ι K V) (hlegal : Legal w c)
    (hfits : Fits w c) : ∃ w' r a', ChainedHashMap.call w c = some (w', r) ∧ Allowed a c r a' ∧
      Corresponds w' a' := by
  have moved : ∀ i j, Corresponds (Function.update (Function.update w i (w j)) j (w j).stolen)
      (Function.update (Function.update a i (a j)) j empty) := fun i j => by
    obtain ⟨chain, hj⟩ := h j
    exact (h.update i hj).update j hj.stolen
  cases c with
  | construct i memory =>
    exact ⟨_, .done, _, rfl, ⟨rfl, rfl⟩, h.update i (represents_made memory)⟩
  | constructList i memory entries =>
    obtain ⟨m, chain, b, hop, hm, hcontents⟩ := Represents.ofEntries memory hfits
    exact ⟨_, .done, _, by rw [ChainedHashMap.call, hop]; rfl, ⟨rfl, b, hcontents, rfl⟩,
      h.update i hm⟩
  | copyConstruct i j memory =>
    obtain ⟨chain, hj⟩ := h j
    have hempty := represents_empty (m := { memory.construct with
      hasher := (w j).hasher, equal := (w j).equal }) rfl rfl hj.hasher hj.equal
    obtain ⟨m, chain', b, hop, hm, hcontents⟩ := hj.copyFrom hempty hfits
    exact ⟨_, .done, _, by rw [ChainedHashMap.call, HashMap.copyConstruct, hop]; rfl,
      ⟨rfl, b, hcontents, rfl⟩, h.update i hm⟩
  | moveConstruct i j => exact ⟨_, .done, _, rfl, ⟨rfl, rfl⟩, moved i j⟩
  | copyAssign i j =>
    by_cases hij : i = j
    · exact ⟨w, .done, a, if_pos hij, ⟨rfl, fun _ => rfl, fun hne => absurd hij hne⟩, h⟩
    · obtain ⟨chain, hj⟩ := h j
      have hempty := represents_empty (m := { (w i).release with
        hasher := (w j).hasher, equal := (w j).equal }) rfl rfl hj.hasher hj.equal
      obtain ⟨m, chain', b, hop, hm, hcontents⟩ := hj.copyFrom hempty hfits
      refine ⟨_, .done, _, ?_, ⟨rfl, fun heq => absurd heq hij, fun _ => ⟨b, hcontents, rfl⟩⟩,
        h.update i hm⟩
      rw [ChainedHashMap.call, if_neg hij, HashMap.copyAssign, hop]
      rfl
  | moveAssign i j =>
    by_cases hij : i = j
    · exact ⟨w, .done, a, if_pos hij, ⟨rfl, fun _ => rfl, fun hne => absurd hij hne⟩, h⟩
    · exact ⟨_, .done, _, if_neg hij, ⟨rfl, fun heq => absurd heq hij, fun _ => rfl⟩, moved i j⟩
  | find i key =>
    obtain ⟨chain, hi⟩ := h i
    obtain ⟨found, hfind, ⟨rfl, hnone⟩ | ⟨x, -, rfl, -, hlookup⟩⟩ := hi.findNode key
    · exact ⟨w, .found none, a, by rw [ChainedHashMap.call, hfind]; rfl,
        ⟨by rw [hnone], rfl⟩, h⟩
    · exact ⟨w, .found (some (x, ((w i).value x).2)), a,
        by rw [ChainedHashMap.call, hfind]; rfl, ⟨by rw [hlookup], rfl⟩, h⟩
  | emplace i key value =>
    obtain ⟨chain, hi⟩ := h i
    obtain ⟨m, x, inserted, chain', b, hop, hm, hinserts⟩ := hi.emplace hfits key value
    exact ⟨_, .inserted x inserted, _, by rw [ChainedHashMap.call, hop]; rfl,
      ⟨x, inserted, b, rfl, hinserts, rfl⟩, h.update i hm⟩
  | insertOrAssign i key value =>
    obtain ⟨chain, hi⟩ := h i
    obtain ⟨m, x, inserted, chain', b, hop, hm, hinserts⟩ := hi.insertOrAssign hfits key value
    exact ⟨_, .inserted x inserted, _, by rw [ChainedHashMap.call, hop]; rfl,
      ⟨x, inserted, b, rfl, hinserts, rfl⟩, h.update i hm⟩
  | subscript i key =>
    obtain ⟨chain, hi⟩ := h i
    obtain ⟨m, x, inserted, chain', b, hop, hm, hinserts⟩ := hi.emplace hfits key default
    exact ⟨_, .inserted x inserted, _, by rw [ChainedHashMap.call, hop]; rfl,
      ⟨x, inserted, b, rfl, hinserts, rfl⟩, h.update i hm⟩
  | store i x value =>
    obtain ⟨chain, hi⟩ := h i
    have hx := hi.contains_iff.mp hlegal
    exact ⟨_, .done, _, rfl, ⟨rfl, _, _, hi.lookup_of_mem hx BEq.rfl, rfl⟩,
      h.update i (hi.setSecond hx BEq.rfl value)⟩
  | eraseKey i key =>
    obtain ⟨chain, hi⟩ := h i
    obtain ⟨m, chain', hop, hm⟩ := hi.eraseKey key
    exact ⟨_, .erased _, _, by rw [ChainedHashMap.call, hop]; rfl, ⟨rfl, rfl⟩, h.update i hm⟩
  | eraseAt i x =>
    obtain ⟨chain, hi⟩ := h i
    have hx := hi.contains_iff.mp hlegal
    obtain ⟨m, next, chain', hop, hm, hnext⟩ := hi.eraseAt hx
    exact ⟨_, .next next, _, by rw [ChainedHashMap.call, hop]; rfl,
      ⟨_, _, next, rfl, hi.lookup_of_mem hx BEq.rfl, rfl, hnext⟩, h.update i hm⟩
  | reserve i count =>
    obtain ⟨chain, hi⟩ := h i
    obtain ⟨m, chain', hop, hm⟩ := hi.reserve hfits
    refine ⟨_, .done, a, by rw [ChainedHashMap.call, hop]; rfl, ⟨rfl, rfl⟩, ?_⟩
    have hupdate := h.update i hm
    rwa [update_eq_self] at hupdate
  | clear i =>
    obtain ⟨chain, hi⟩ := h i
    exact ⟨_, .done, _, rfl, ⟨rfl, rfl⟩, h.update i hi.clear⟩

/-- In every run in which no table for more than `2 ^ 60` elements is asked for, every call
returns, the replies are those of the finite maps, and every map shows its finite map. -/
theorem calls_refine_finiteMap (memory : ι → HashMap K V) (calls : List (Call ι K V))
    (hlegal : Calls.Guarded exec Legal (fun i => (memory i).made) calls)
    (hfits : Calls.Guarded exec Fits (fun i => (memory i).made) calls) : ∃ w replies a,
      Calls.run exec (fun i => (memory i).made) calls = .ok (w, replies) ∧
        Calls.Trace Allowed (fun _ => FiniteMap.empty) calls replies a ∧
        ∀ i, Agrees (w i) (a i) := by
  have hboth : Calls.Guarded exec (fun w c => Legal w c ∧ Fits w c) (fun i => (memory i).made)
      calls :=
    Calls.guarded_of_invariant (fun _ => True) (fun _ _ _ hl hf => ⟨hl, hf⟩)
      (fun _ _ _ _ _ _ _ _ => trivial) trivial hlegal hfits
  obtain ⟨w, replies, a, hrun, htrace, hfinal⟩ := Calls.run_traces Corresponds
    (fun w a c h hg => by
      obtain ⟨w', r, a', hcall, hallowed, hnext⟩ := h.call c hg.1 hg.2
      exact ⟨w', r, a', by rw [exec, hcall], hallowed, hnext⟩)
    (fun i => ⟨_, represents_made (memory i)⟩) hboth
  refine ⟨w, replies, a, hrun, htrace, fun i => ?_⟩
  obtain ⟨chain, hi⟩ := hfinal i
  exact hi.agrees

end Runs

instance decidableFits {ι : Type} (w : ι → HashMap K V) : ∀ c : Call ι K V, Decidable (Fits w c)
  | .constructList .. => Nat.decLe ..
  | .copyConstruct .. => Nat.decLe ..
  | .copyAssign .. => Nat.decLe ..
  | .emplace .. => Nat.decLt ..
  | .insertOrAssign .. => Nat.decLt ..
  | .subscript .. => Nat.decLt ..
  | .reserve .. => instDecidableOr
  | .construct .. => isTrue trivial
  | .moveConstruct .. => isTrue trivial
  | .moveAssign .. => isTrue trivial
  | .find .. => isTrue trivial
  | .store .. => isTrue trivial
  | .eraseKey .. => isTrue trivial
  | .eraseAt .. => isTrue trivial
  | .clear .. => isTrue trivial

def someCalls : List (Call Bool ℕ ℕ) :=
  [.emplace false 1 10, .insertOrAssign false 1 11, .subscript false 2, .reserve false 100,
    .eraseKey false 2, .copyAssign true false, .find true 1]

theorem calls_refine_finiteMap_some : ∃ w replies a,
    Calls.run exec (fun _ => numbers.made) someCalls = .ok (w, replies) ∧
      Calls.Trace Allowed (fun _ => FiniteMap.empty) someCalls replies a ∧
      ∀ i, Agrees (w i) (a i) :=
  calls_refine_finiteMap (fun _ => numbers) someCalls
    (Calls.guarded_of_forall (by simp [someCalls, Legal]) _) (by decide +kernel)

/-- The table of `2 ^ 61` buckets asks for `2 ^ 64` bytes, which is none. -/
theorem reserve_not_refining : ¬ ∀ calls : List (Call Unit ℕ ℕ),
    Calls.Guarded exec Legal (fun _ => numbers.made) calls → ∃ w replies a,
      Calls.run exec (fun _ => numbers.made) calls = .ok (w, replies) ∧
        Calls.Trace Allowed (fun _ => FiniteMap.empty) calls replies a ∧
        ∀ i, Agrees (w i) (a i) := by
  intro h
  have hround : roundUpToPowerOfTwo (1 <<< 60 + 1) = some (1 <<< 61) := by decide +kernel
  have hshift : shiftLoop (1 <<< 61) 65 0 = some 61 := by decide +kernel
  have hrehash : numbers.made.rehash (1 <<< 60 + 1) = none := by
    rw [HashMap.rehash, hround]
    simp only [bind, Option.bind, hshift]
    exact if_pos (by decide)
  have hreserve : numbers.made.reserve (1 <<< 60 + 1) = none :=
    (if_pos (by decide)).trans hrehash
  obtain ⟨w, replies, a, hrun, -⟩ := h [.reserve () (1 <<< 60 + 1)] ⟨trivial, fun _ _ _ => trivial⟩
  have hexec : exec (fun _ : Unit => numbers.made) (.reserve () (1 <<< 60 + 1)) = .error () := by
    rw [exec, call, hreserve]
    rfl
  cases hrun

end Equilibrium.ChainedHashMap
