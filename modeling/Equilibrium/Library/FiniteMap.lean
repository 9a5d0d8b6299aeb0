import Mathlib.Tactic.Common
import Mathlib.Data.List.Pairwise

/-! Finite maps over keys with an equality test `==` that is an equivalence.
A map is the list of its pairs in the order in which their keys came in, no two
with equal keys; a representation without that order is compared with it up to
permutation. -/

namespace Equilibrium.Library

open List

structure FiniteMap (K V : Type) [BEq K] where
  entries : List (K × V)
  distinct : entries.Pairwise fun a b => (a.1 == b.1) = false

namespace FiniteMap

variable {K V : Type} [BEq K]

def empty : FiniteMap K V := ⟨[], .nil⟩

def card (m : FiniteMap K V) : Nat := m.entries.length

def lookup (m : FiniteMap K V) (k : K) : Option V :=
  (m.entries.find? (fun e => e.1 == k)).map Prod.snd

def insertNew (m : FiniteMap K V) (k : K) (v : V) : FiniteMap K V :=
  if h : (m.entries.find? (fun e => e.1 == k)).isNone then
    ⟨m.entries ++ [(k, v)], List.pairwise_append.mpr ⟨m.distinct, by simp, by
      intro a ha b hb
      rw [List.mem_singleton.mp hb]
      have := List.find?_eq_none.mp (Option.isNone_iff_eq_none.mp h) a ha
      simpa using this⟩⟩
  else m

def replace (m : FiniteMap K V) (k : K) (v : V) : FiniteMap K V :=
  ⟨m.entries.map (fun e => if e.1 == k then (e.1, v) else e),
    List.pairwise_map.mpr (m.distinct.imp fun {a b} h => by
      split <;> split <;> exact h)⟩

def erase (m : FiniteMap K V) (k : K) : FiniteMap K V :=
  ⟨m.entries.filter (fun e => !(e.1 == k)), m.distinct.filter _⟩

def map {W : Type} (m : FiniteMap K V) (f : V → W) : FiniteMap K W :=
  ⟨m.entries.map (fun e => (e.1, f e.2)), List.pairwise_map.mpr m.distinct⟩

def insertAll (m : FiniteMap K V) (entries : List (K × V)) : FiniteMap K V :=
  entries.foldl (fun m e => m.insertNew e.1 e.2) m

theorem lookup_eq_none {m : FiniteMap K V} {k : K} :
    m.lookup k = none ↔ ∀ e ∈ m.entries, (e.1 == k) = false := by
  simp [lookup]

theorem exists_of_lookup {m : FiniteMap K V} {k : K} {v : V} (h : m.lookup k = some v) :
    ∃ k', (k', v) ∈ m.entries ∧ (k' == k) = true := by
  cases hfind : m.entries.find? (fun e => e.1 == k) with
  | none => simp [lookup, hfind] at h
  | some e =>
    obtain rfl : e.2 = v := by simpa [lookup, hfind] using h
    exact ⟨e.1, mem_of_find?_eq_some hfind, by simpa using find?_some hfind⟩

theorem insertNew_of_none {m : FiniteMap K V} {k : K} (h : m.lookup k = none) (v : V) :
    (m.insertNew k v).entries = m.entries ++ [(k, v)] := by
  have hfind : m.entries.find? (fun e => e.1 == k) = none := by simpa [lookup] using h
  simp [insertNew, hfind]

theorem insertNew_of_some {m : FiniteMap K V} {k : K} (h : m.lookup k ≠ none) (v : V) :
    m.insertNew k v = m :=
  dif_neg fun hnone => h (by rw [lookup, Option.isNone_iff_eq_none.mp hnone]; rfl)

theorem eq_of_entries {m m' : FiniteMap K V} (h : m.entries = m'.entries) : m = m' := by
  cases m
  cases m'
  cases h
  rfl

theorem entries_replace (m : FiniteMap K V) (k : K) (v : V) :
    (m.replace k v).entries = m.entries.map fun e => if e.1 == k then (e.1, v) else e := rfl

section Map

variable {W : Type} (m : FiniteMap K V) (f : V → W) (k : K) (v : V)

theorem entries_map : (m.map f).entries = m.entries.map fun e => (e.1, f e.2) := rfl

theorem lookup_map : (m.map f).lookup k = (m.lookup k).map f := by
  simp only [lookup, map, find?_map, Option.map_map]
  rfl

theorem insertNew_map : (m.map f).insertNew k (f v) = (m.insertNew k v).map f := by
  refine eq_of_entries ?_
  cases hlookup : m.lookup k with
  | none =>
    have hmap : (m.map f).lookup k = none := by rw [lookup_map, hlookup]; rfl
    rw [insertNew_of_none hmap, entries_map, entries_map, insertNew_of_none hlookup,
      map_append]
    rfl
  | some v' =>
    have hmap : (m.map f).lookup k ≠ none := by rw [lookup_map, hlookup]; exact nofun
    rw [insertNew_of_some hmap, insertNew_of_some (by rw [hlookup]; exact nofun)]

theorem erase_map : (m.map f).erase k = (m.erase k).map f := by
  refine eq_of_entries ?_
  simp only [erase, map, filter_map]
  rfl

end Map

theorem erase_of_none {m : FiniteMap K V} {k : K} (h : m.lookup k = none) : m.erase k = m := by
  refine eq_of_entries (filter_eq_self.mpr fun e he => ?_)
  simp [lookup_eq_none.mp h e he]

theorem replace_insertNew [ReflBEq K] {m : FiniteMap K V} {k : K} (h : m.lookup k = none)
    (v v' : V) : (m.insertNew k v).replace k v' = m.insertNew k v' := by
  refine eq_of_entries ?_
  rw [entries_replace, insertNew_of_none h, insertNew_of_none h, map_append]
  congr 1
  · refine (map_congr_left fun e he => ?_).trans (map_id' _)
    exact if_neg (by simp [lookup_eq_none.mp h e he])
  · simp

variable [EquivBEq K] {xs : List (K × V)}

theorem distinct_of_perm {m : FiniteMap K V} (h : xs.Perm m.entries) :
    xs.Pairwise fun a b => (a.1 == b.1) = false :=
  h.symm.pairwise m.distinct fun {a b} hab => by rwa [BEq.comm]

theorem eq_of_pairwise (hd : xs.Pairwise fun a b => (a.1 == b.1) = false) {a b : K × V} {k : K}
    (ha : a ∈ xs) (hb : b ∈ xs) (hak : (a.1 == k) = true) (hbk : (b.1 == k) = true) : a = b := by
  have hab : (a.1 == b.1) = true := BEq.trans hak (BEq.symm hbk)
  have symm : Std.Symm fun a b : K × V => (a.1 == b.1) = false := ⟨fun a b h => by rwa [BEq.comm]⟩
  by_contra hne
  have := hd.forall ha hb hne
  simp [hab] at this

theorem lookup_eq_some {m : FiniteMap K V} {k k' : K} {v : V} (h : (k', v) ∈ m.entries)
    (hk : (k' == k) = true) : m.lookup k = some v := by
  cases hfind : m.entries.find? (fun e => e.1 == k) with
  | none =>
    have := find?_eq_none.mp hfind (k', v) h
    simp [hk] at this
  | some e =>
    have he : e = (k', v) := eq_of_pairwise m.distinct (mem_of_find?_eq_some hfind) h
      (by simpa using find?_some hfind) hk
    simp [lookup, hfind, he]

theorem insertNew_of_mem {m : FiniteMap K V} {k k' : K} {v' : V} (h : (k', v') ∈ m.entries)
    (hk : (k' == k) = true) (v : V) : m.insertNew k v = m :=
  insertNew_of_some (by rw [lookup_eq_some h hk]; exact nofun) v

theorem lookup_insertNew_of_some {m : FiniteMap K V} {k : K} {v : V} (h : m.lookup k = some v)
    (k' : K) (v' : V) : (m.insertNew k' v').lookup k = some v := by
  cases hlookup : m.lookup k' with
  | some u => rwa [insertNew_of_some (by rw [hlookup]; exact nofun)]
  | none =>
    obtain ⟨l, hmem, hkey⟩ := exists_of_lookup h
    refine lookup_eq_some ?_ hkey
    rw [insertNew_of_none hlookup]
    exact mem_append_left _ hmem

theorem lookup_erase_of_ne {m : FiniteMap K V} {k k' : K} {v : V} (h : m.lookup k = some v)
    (hne : (k == k') = false) : (m.erase k').lookup k = some v := by
  obtain ⟨l, hmem, hkey⟩ := exists_of_lookup h
  refine lookup_eq_some (mem_filter.mpr ⟨hmem, ?_⟩) hkey
  rw [BEq.congr_left hkey, hne]
  rfl

omit [EquivBEq K] in
/-- Pairs with new keys come in as they are. -/
theorem entries_insertAll {m : FiniteMap K V}
    (h : (m.entries ++ xs).Pairwise fun a b => (a.1 == b.1) = false) :
    (m.insertAll xs).entries = m.entries ++ xs := by
  induction xs generalizing m with
  | nil => exact (append_nil _).symm
  | cons e xs ih =>
    have hnone : m.lookup e.1 = none := lookup_eq_none.mpr fun e' he' =>
      (pairwise_append.mp h).2.2 e' he' e mem_cons_self
    have hentries : (m.insertNew e.1 e.2).entries = m.entries ++ [e] := insertNew_of_none hnone e.2
    rw [append_cons, ← hentries] at h
    rw [append_cons, ← hentries]
    exact ih h

theorem perm_erase {m : FiniteMap K V} {k k' : K} {v : V} (h : ((k', v) :: xs).Perm m.entries)
    (hk : (k' == k) = true) : xs.Perm (m.erase k).entries := by
  have hd := distinct_of_perm h
  have hfilter := h.filter (fun e => !(e.1 == k))
  rw [filter_cons, if_neg (by simp [hk])] at hfilter
  have hall : xs.filter (fun e => !(e.1 == k)) = xs := by
    refine filter_eq_self.mpr fun e he => ?_
    have hne := (pairwise_cons.mp hd).1 e he
    have : ¬(e.1 == k) = true := fun hek => by
      have := BEq.trans hk (BEq.symm hek)
      simp [hne] at this
    simpa using this
  rwa [hall] at hfilter

theorem perm_replace {m : FiniteMap K V} {k k' : K} {v : V} {before after : List (K × V)}
    (h : (before ++ (k', v) :: after).Perm m.entries) (hk : (k' == k) = true) (v' : V) :
    (before ++ (k', v') :: after).Perm (m.replace k v').entries := by
  have hd := distinct_of_perm h
  have hmap := h.map (fun e => if e.1 == k then (e.1, v') else e)
  have keep : ∀ e ∈ before ++ after, (if e.1 == k then (e.1, v') else e) = e := by
    intro e he
    refine if_neg fun hek => ?_
    have hd' := pairwise_cons.mp
      (perm_middle.pairwise hd fun {a b} hab => by rwa [BEq.comm])
    have hne := hd'.1 e he
    have := BEq.trans hk (BEq.symm hek)
    simp [hne] at this
  have hbefore : before.map (fun e => if e.1 == k then (e.1, v') else e) = before :=
    (map_congr_left fun e he => keep e (by simp [he])).trans (map_id' before)
  have hafter : after.map (fun e => if e.1 == k then (e.1, v') else e) = after :=
    (map_congr_left fun e he => keep e (by simp [he])).trans (map_id' after)
  rw [map_append, map_cons, hbefore, hafter] at hmap
  simpa [hk, replace] using hmap

end FiniteMap

end Equilibrium.Library
