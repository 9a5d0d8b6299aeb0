import Equilibrium.Containers.LockFreeOrderedMapCollect
import Equilibrium.Library.FiniteMap

/-! Used by one thread, the map is a finite map that keeps the order of insertion, and a
collection is not seen. -/

namespace Equilibrium.LockFreeOrderedHashMap

open Library

variable {Key Value : Type} [DecidableEq Key]

def spec (a : FiniteMap Key Value) : Call Key Value → FiniteMap Key Value × Answer Key Value
  | .insert _ key value => (a.insertNew key value, .flag (a.lookup key).isNone)
  | .remove _ key => (a.erase key, .flag (a.lookup key).isSome)
  | .find key => (a, .found (a.lookup key))
  | .withValue key callback =>
    match a.lookup key with
    | some value => (a.replace key (callback value), .flag true)
    | none => (a, .flag false)
  | .iterate => (a, .entries a.entries)
  | .orderedKeysSnapshot => (a, .keys (a.entries.map Prod.fst))
  | .collectGarbage => (a, .done)
  | .epochs _ _ => (a, .done)

theorem mem_keys_iff_lookup {m : Map Key Value} {order : List ℕ} {a : FiniteMap Key Value}
    (ha : a.entries = m.pairs order) {key : Key} : key ∈ m.keys order ↔ a.lookup key ≠ none := by
  rw [Map.keys, ← ha, ne_eq, FiniteMap.lookup_eq_none]
  simp

theorem lookup_of_mem_pairs {m : Map Key Value} {order : List ℕ} {a : FiniteMap Key Value}
    (ha : a.entries = m.pairs order) {key : Key} {value : Value}
    (h : (key, value) ∈ m.pairs order) : a.lookup key = some value :=
  FiniteMap.lookup_eq_some (ha ▸ h) (beq_self_eq_true key)

theorem erase_of_none {a : FiniteMap Key Value} {key : Key} (h : a.lookup key = none) :
    (a.erase key).entries = a.entries := by
  refine List.filter_eq_self.mpr fun e he => ?_
  rw [FiniteMap.lookup_eq_none.mp h e he]
  rfl

theorem entries_replace {a : FiniteMap Key Value} {key : Key} {value : Value}
    (h : a.lookup key = some value) (callback : Value → Value) :
    (a.replace key (callback value)).entries =
      a.entries.map fun e => if e.1 = key then (e.1, callback e.2) else e := by
  refine List.map_congr_left fun e he => ?_
  by_cases hkey : e.1 = key
  · subst hkey
    have hlookup := FiniteMap.lookup_eq_some he (beq_self_eq_true e.1)
    rw [hlookup] at h
    cases h
    simp
  · simp [hkey]

variable [Hashable Key]

/-- The map is settled and holds the finite map's pairs in its order. -/
def Represents (s : Single Key Value) (a : FiniteMap Key Value) : Prop :=
  ∃ chain order, Settled s.map chain order ∧ a.entries = s.map.pairs order

theorem represents_single (count : ℕ) (current : ℤ) (slots : List ℤ) :
    Represents (single count current slots : Single Key Value) FiniteMap.empty :=
  ⟨fun _ => [], [], settled_construct count, rfl⟩

/-- An insertion is refused when the key is there, and, once its node was made and the key
moved, when the key that was left is there, too, and is looked for. -/
def Refused (hashKey : Key → ℕ) (a : FiniteMap Key Value) (moved : Key) (failures : Map.Failures)
    (key : Key) : Prop :=
  a.lookup key ≠ none ∨ a.lookup moved ≠ none ∧ (failures.bucket ≠ 0 ∨ hashKey moved = hashKey key)

instance {hashKey : Key → ℕ} {a : FiniteMap Key Value} {moved : Key} {failures : Map.Failures}
    {key : Key} : Decidable (Refused hashKey a moved failures key) :=
  inferInstanceAs (Decidable (_ ∨ _))

section

omit [Hashable Key]

theorem refused_self_iff (hashKey : Key → ℕ) (a : FiniteMap Key Value) (failures : Map.Failures)
    (key : Key) : Refused hashKey a key failures key ↔ a.lookup key ≠ none :=
  or_iff_left_of_imp And.left

theorem refused_self (hashKey : Key → ℕ) (a : FiniteMap Key Value) (failures : Map.Failures)
    (key : Key) (value : Value) :
    (if Refused hashKey a key failures key then a else a.insertNew key value) =
      a.insertNew key value := by
  split
  · next hrefused =>
    exact (FiniteMap.insertNew_of_some ((refused_self_iff _ _ _ _).mp hrefused) value).symm
  · rfl

end

namespace Represents

variable {s : Single Key Value} {a : FiniteMap Key Value}

section

variable (h : Represents s a)
include h

theorem congr {s' : Single Key Value} (hmap : s'.map = s.map) : Represents s' a := by
  rw [Represents, hmap]
  exact h

theorem collectGarbage : ∃ s', s.collectGarbage = .ok s' ∧ Represents s' a := by
  obtain ⟨chain, order, hsettled, ha⟩ := h
  obtain ⟨s', hok, hsettled', hpairs, -⟩ := collectGarbage_eq hsettled
  exact ⟨s', hok, chain, _, hsettled', ha.trans hpairs.symm⟩

theorem postMutate : ∃ s', s.postMutate = .ok s' ∧ Represents s' a := by
  obtain ⟨chain, order, hsettled, ha⟩ := h
  obtain ⟨s', order', hok, hsettled', hpairs, -⟩ := postMutate_eq hsettled
  exact ⟨s', hok, chain, order', hsettled', ha.trans hpairs.symm⟩

theorem insertInternal (forward : Key → Key) (failures : Map.Failures) (key : Key) (value : Value) :
    ∃ m, s.map.insertInternal forward failures key value =
        .ok (m, decide ¬ Refused s.map.hashKey a (forward key) failures key) ∧
      Represents { s with map := m }
        (if Refused s.map.hashKey a (forward key) failures key then a else a.insertNew key value) := by
  obtain ⟨chain, order, hsettled, ha⟩ := h
  have hkeys : ∀ k, k ∈ s.map.keys order ↔ a.lookup k ≠ none := fun k => mem_keys_iff_lookup ha
  rw [insertInternal_eq hsettled]
  simp only [hkeys]
  by_cases hrefused : Refused s.map.hashKey a (forward key) failures key
  · rw [decide_eq_false (not_not.mpr hrefused), if_pos hrefused]
    by_cases hkey : a.lookup key = none
    · have hback := hrefused.resolve_left (not_not.mpr hkey)
      rw [if_neg (not_not.mpr hkey), if_pos hback]
      refine ⟨_, rfl, chain, order, ?_⟩
      split
      · obtain ⟨hsettled', hpairs⟩ := hsettled.abandoned key value
        exact ⟨hsettled', ha.trans hpairs.symm⟩
      · obtain ⟨hsettled', hpairs⟩ := hsettled.discarded key value
        exact ⟨hsettled', ha.trans hpairs.symm⟩
    · rw [if_pos hkey]
      exact ⟨s.map, rfl, chain, order, hsettled, ha⟩
  · obtain ⟨hkey, hback⟩ := not_or.mp hrefused
    have hkey := not_not.mp hkey
    rw [decide_eq_true hrefused, if_neg hrefused, if_neg (not_not.mpr hkey), if_neg hback]
    refine ⟨_, rfl, _, _, hsettled.inserted fun x n hlive hx => ?_, ?_⟩
    · exact (hkeys key).mp (hsettled.mem_keys.mpr ⟨x, n, hlive, hx⟩) hkey
    · rw [FiniteMap.insertNew_of_none hkey, ha, hsettled.pairs_inserted]

theorem insert (failures : Map.Failures) (key : Key) (value : Value) :
    ∃ m, s.map.insertInternal id failures key value = .ok (m, (a.lookup key).isNone) ∧
      Represents { s with map := m } (a.insertNew key value) := by
  obtain ⟨m, hok, hrep⟩ := h.insertInternal id failures key value
  simp only [id] at hok hrep
  refine ⟨m, ?_, refused_self s.map.hashKey a failures key value ▸ hrep⟩
  rw [hok]
  cases hlookup : a.lookup key with
  | none => rw [decide_eq_true ((refused_self_iff _ _ _ _).not.mpr (not_not.mpr hlookup))]; rfl
  | some v =>
    have hsome : a.lookup key ≠ none := by rw [hlookup]; exact nofun
    rw [decide_eq_false (not_not.mpr ((refused_self_iff _ _ _ _).mpr hsome))]
    rfl

end

theorem unlinked {chain : ℕ → List ℕ} {order : List ℕ} (h : Settled s.map chain order)
    (ha : a.entries = s.map.pairs order) {x : ℕ} {n : Node Key Value} (hlive : s.map.Live x n)
    {l rest : List ℕ} (hchain : chain (s.map.hashKey n.key) = l ++ x :: rest) : Represents { s with
      map := s.map.unlinked x (Map.linkAfter (.bucket (s.map.hashKey n.key)) l)
      deleteSinceGc := s.deleteSinceGc + 1 } (a.erase n.key) := by
  refine ⟨_, order, h.unlinked hchain, ?_⟩
  rw [h.pairs_unlinked hlive, ← ha]
  exact List.filter_congr fun e _ => by simp [beq_eq_decide]

section

variable (h : Represents s a)
include h

theorem remove (failures : ℕ) (key : Key) :
    ∃ s', s.remove key failures = .ok (s', (a.lookup key).isSome) ∧ Represents s' (a.erase key) := by
  obtain ⟨chain, order, hsettled, ha⟩ := h
  have hkeys : key ∈ s.map.keys order ↔ a.lookup key ≠ none := mem_keys_iff_lookup ha
  rcases removeGuarded_eq hsettled key failures with
    ⟨hkey, hremove⟩ | ⟨x, n, l, rest, hremove, hlive, rfl, hchain⟩
  · have hlookup : a.lookup key = none := not_not.mp (hkeys.not.mp hkey)
    have hrep : Represents { s with map := s.map } (a.erase key) :=
      ⟨chain, order, hsettled, (erase_of_none hlookup).trans ha⟩
    obtain ⟨s', hpost, hrep'⟩ := hrep.postMutate
    refine ⟨s', ?_, hrep'⟩
    rw [Single.remove, hremove, hlookup]
    simp only [bind, Except.bind, hpost]
    rfl
  · have hsome : (a.lookup n.key).isSome = true :=
      Option.isSome_iff_ne_none.mpr (hkeys.mp (hsettled.mem_keys.mpr ⟨x, n, hlive, rfl⟩))
    obtain ⟨s', hpost, hrep'⟩ := (unlinked hsettled ha hlive hchain).postMutate
    refine ⟨s', ?_, hrep'⟩
    rw [Single.remove, hremove, hsome]
    simp only [bind, Except.bind, hpost]

theorem find (key : Key) : s.map.find key = .ok (a.lookup key) := by
  obtain ⟨chain, order, hsettled, ha⟩ := h
  rcases find_eq hsettled key with ⟨hkey, hfind⟩ | ⟨value, hmem, hfind⟩
  · rw [hfind, not_not.mp ((mem_keys_iff_lookup ha).not.mp hkey)]
  · rw [hfind, lookup_of_mem_pairs ha hmem]

theorem withValue (key : Key) (callback : Value → Value) :
    ∃ m, s.map.withValue key callback = .ok (m, (a.lookup key).isSome) ∧
      Represents { s with map := m } (spec a (.withValue key callback)).1 ∧
      (spec a (.withValue key callback)).2 = .flag (a.lookup key).isSome := by
  obtain ⟨chain, order, hsettled, ha⟩ := h
  have hkeys : key ∈ s.map.keys order ↔ a.lookup key ≠ none := mem_keys_iff_lookup ha
  rw [spec]
  rcases withValue_eq hsettled key callback with ⟨hkey, hstore⟩ | ⟨m, hkey, hstore, hsettled', hpairs, -⟩
  · rw [not_not.mp (hkeys.not.mp hkey)]
    exact ⟨s.map, hstore, ⟨chain, order, hsettled, ha⟩, rfl⟩
  · obtain ⟨value, hvalue⟩ := Option.ne_none_iff_exists'.mp (hkeys.mp hkey)
    rw [hvalue]
    refine ⟨m, hstore, ⟨chain, order, hsettled', ?_⟩, rfl⟩
    rw [entries_replace hvalue, hpairs, ha]

theorem exec (call : Call Key Value) :
    ∃ s', exec s call = .ok (s', (spec a call).2) ∧ Represents s' (spec a call).1 := by
  have hread := h
  obtain ⟨chain, order, hsettled, ha⟩ := hread
  cases call with
  | insert failures key value =>
    obtain ⟨m, hok, hrep⟩ := h.insert failures key value
    exact ⟨_, by rw [LockFreeOrderedHashMap.exec, hok]; rfl, hrep⟩
  | remove failures key =>
    obtain ⟨s', hok, hrep⟩ := h.remove failures key
    exact ⟨s', by rw [LockFreeOrderedHashMap.exec, hok]; rfl, hrep⟩
  | find key => exact ⟨s, by rw [LockFreeOrderedHashMap.exec, h.find]; rfl, h⟩
  | withValue key callback =>
    obtain ⟨m, hok, hrep, hflag⟩ := h.withValue key callback
    exact ⟨_, by rw [LockFreeOrderedHashMap.exec, hok, hflag]; rfl, hrep⟩
  | iterate =>
    exact ⟨s, by rw [LockFreeOrderedHashMap.exec, iterate_eq hsettled, spec, ha]; rfl, h⟩
  | orderedKeysSnapshot =>
    refine ⟨s, ?_, h⟩
    rw [LockFreeOrderedHashMap.exec, orderedKeysSnapshot_eq hsettled, spec, ha]
    rfl
  | collectGarbage =>
    obtain ⟨s', hok, hrep⟩ := h.collectGarbage
    exact ⟨s', by rw [LockFreeOrderedHashMap.exec, hok]; rfl, hrep⟩
  | epochs current slots => exact ⟨_, rfl, h.congr rfl⟩

end

end Represents

/-- Every history of calls returns with the answers of the finite map. -/
theorem run_agrees (count : ℕ) (current : ℤ) (slots : List ℤ) (calls : List (Call Key Value)) :
    ∃ s, Calls.run exec (single count current slots) calls =
        .ok (s, (Calls.total spec FiniteMap.empty calls).2) ∧
      Represents s (Calls.total spec FiniteMap.empty calls).1 :=
  Calls.run_total Represents (fun _ _ call h => h.exec call)
    (represents_single count current slots) calls

end Equilibrium.LockFreeOrderedHashMap

/-! Histories in which some insertions take their key as `Key&&`. After the new node is
made, the search of a later round and the scan for duplicates look for what the move left. -/

namespace Equilibrium.LockFreeOrderedHashMap

open Library

variable {Key Value : Type} [DecidableEq Key] [Hashable Key]

namespace Represents

variable {s : Single Key Value} {a : FiniteMap Key Value}

theorem execMove (h : Represents s a) (call : MoveCall Key Value) :
    ∃ s' r a', execMove s call = .ok (s', r) ∧ Represents s' a' := by
  cases call with
  | call call =>
    obtain ⟨s', hok, hrep⟩ := h.exec call
    exact ⟨s', _, _, hok, hrep⟩
  | insertMoved failures moved key value =>
    obtain ⟨m, hok, hrep⟩ := h.insertInternal (fun _ => moved) failures key value
    exact ⟨_, _, _, by rw [LockFreeOrderedHashMap.execMove, hok]; rfl, hrep⟩

end Represents

theorem Represents.iterate {s : Single Key Value} {a : FiniteMap Key Value} (h : Represents s a) :
    s.map.iterate = .ok a.entries := by
  obtain ⟨chain, order, hsettled, ha⟩ := h
  rw [iterate_eq hsettled, ha]

end Equilibrium.LockFreeOrderedHashMap
