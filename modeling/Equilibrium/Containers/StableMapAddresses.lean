import Equilibrium.Containers.StableMap

/-! Addresses of values in `StableMap` objects: the value of a key stays at its address until the
key is erased or the map is cleared or destroyed, through every move of the map and every
relocation of its table. -/

namespace Equilibrium.StableMap

open UnorderedMap Library Calls

variable {ι K : Type}

def World.Holds (w : World ι K) (p : ι × K) (v : ℕ) : Prop :=
  ∃ m, w.maps p.1 = some m ∧ (p.2, some v) ∈ entries m.slots

/-- The address that `find` returns for a key. -/
def World.address [BEq K] [Hashable K] (w : World ι K) (x : ι) (key : K) : Option ℕ :=
  (w.maps x).bind fun m => (m.find key).join

section Follow

variable [DecidableEq ι]

/-- The map that has the keys of the map `x` after a call that keeps them. -/
def follow (x : ι) : Call ι K → ι
  | .moveConstruct y other | .moveAssign y other => if other = x then y else x
  | _ => x

def followAll (x : ι) (calls : List (Memory × Call ι K)) : ι :=
  calls.foldl (fun x call => follow x call.2) x

variable [BEq K]

/-- The call neither erases the key of the map `x` nor clears, destroys or overwrites the map. -/
def Keeps (x : ι) (key : K) : Call ι K → Prop
  | .moveAssign y other => y = x → other = x
  | .erase y key' => y = x → (key == key') = false
  | .clear y | .destruct y => y ≠ x
  | _ => True

/-- Every call keeps the key, in the map to which the calls before have taken it. -/
def Lasts (x : ι) (key : K) : List (Memory × Call ι K) → Prop
  | [] => True
  | call :: rest => Keeps x key call.2 ∧ Lasts (follow x call.2) key rest

end Follow

variable [BEq K]

namespace Contents

theorem address_of_eq {s s' : Contents ι K} {x y : ι} (h : s'.maps y = s.maps x) (key : K) :
    s'.address y key = s.address x key := by
  rw [address, address, h]

theorem exists_of_address {s : Contents ι K} {x : ι} {key : K} {v : ℕ}
    (h : s.address x key = some v) : ∃ a, s.maps x = some a ∧ a.lookup key = some v :=
  Option.bind_eq_some_iff.mp h

variable [DecidableEq ι] {s : Contents ι K} {x y other : ι} {key : K} {v : ℕ}

theorem address_put (p : Option (FiniteMap K ℕ)) : (s.put x p).address y key =
      if y = x then p.bind fun a => a.lookup key else s.address y key := by
  by_cases hyx : y = x
  · rw [if_pos hyx, hyx]
    simp only [address, put, Function.update_self]
  · rw [if_neg hyx]
    exact address_of_eq (Function.update_of_ne hyx ..) key

theorem address_put_of_ne (p : Option (FiniteMap K ℕ)) (hyx : y ≠ x) :
    (s.put x p).address y key = s.address y key := by
  rw [address_put, if_neg hyx]

theorem address_move (hxo : x ≠ other) (hyx : y ≠ x) :
    (s.move x other).address (if other = y then x else y) key = s.address y key := by
  by_cases hoy : other = y
  case pos =>
    rw [if_pos hoy, move, address_put_of_ne _ hxo, address_put, if_pos rfl, ← hoy]
    rfl
  case neg => rw [if_neg hoy, move, address_put_of_ne _ (Ne.symm hoy), address_put_of_ne _ hyx]

variable [EquivBEq K]

theorem address_insert (h : s.address y key = some v) (key' : K) :
    (s.insert x key').address y key = some v := by
  change (s.put x _).address y key = some v
  rw [address_put]
  by_cases hyx : y = x
  case pos =>
    obtain ⟨a, ha, hlookup⟩ := exists_of_address h
    rw [if_pos hyx, ← hyx, ha]
    exact FiniteMap.lookup_insertNew_of_some hlookup key' s.created
  case neg => rwa [if_neg hyx]

theorem address_erase (h : s.address y key = some v) {key' : K}
    (hkeeps : x = y → (key == key') = false) :
    (s.put x ((s.maps x).map fun a => a.erase key')).address y key = some v := by
  rw [address_put]
  by_cases hyx : y = x
  case pos =>
    obtain ⟨a, ha, hlookup⟩ := exists_of_address h
    rw [if_pos hyx, ← hyx, ha]
    exact FiniteMap.lookup_erase_of_ne hlookup (hkeeps hyx.symm)
  case neg => rwa [if_neg hyx]

end Contents

variable [DecidableEq ι] [EquivBEq K] [Hashable K] {w w' : World ι K} {s : Contents ι K}
  {x y : ι} {key : K} {v : ℕ}

theorem Matches.address_spec (h : Matches w s) {call : Memory × Call ι K} (hlegal : Legal w call)
    (haddress : s.address x key = some v) (hkeeps : Keeps x key call.2) :
    (spec s call).1.address (follow x call.2) key = some v := by
  obtain ⟨a, ha, -⟩ := Contents.exists_of_address haddress
  have hne {y : ι} (hy : w.maps y = none) : x ≠ y := by
    rintro rfl
    rw [h.maps_eq_none.mp hy] at ha
    cases ha
  obtain ⟨mem, call⟩ := call
  cases call with
  | construct y => exact (Contents.address_put_of_ne _ (hne hlegal)).trans haddress
  | moveConstruct y other =>
    have hyo : y ≠ other := by
      rintro rfl
      exact hlegal.2 hlegal.1
    exact (Contents.address_move hyo (hne hlegal.1)).trans haddress
  | moveAssign y other =>
    by_cases hyo : y = other
    case pos =>
      have hfollow : follow x (.moveAssign y other : Call ι K) = x := by
        rw [follow, hyo]
        exact ite_eq_right_iff.mpr id
      rw [hfollow, spec, if_pos hyo]
      exact haddress
    case neg =>
      have hxy : x ≠ y := by
        rintro rfl
        exact hyo (hkeeps rfl).symm
      rw [spec, if_neg hyo]
      exact (Contents.address_move hyo hxy).trans haddress
  | subscript y key' =>
    cases hlookup : s.address y key' with
    | some u =>
      simp only [spec, hlookup]
      exact haddress
    | none =>
      simp only [spec, hlookup]
      exact Contents.address_insert haddress key'
  | find y key' => exact haddress
  | contains y key' => exact haddress
  | erase y key' => exact Contents.address_erase haddress hkeeps
  | clear y => exact (Contents.address_put_of_ne _ (Ne.symm hkeeps)).trans haddress
  | reserve y n => exact haddress
  | destruct y => exact (Contents.address_put_of_ne _ (Ne.symm hkeeps)).trans haddress

variable [LawfulHashable K]

section

variable (h : Matches w s)
include h

omit [DecidableEq ι] in
theorem Matches.address (x : ι) (key : K) : w.address x key = s.address x key := by
  have hx := h.maps x
  cases hw : w.maps x with
  | none => rw [World.address, hw, Contents.address, h.maps_eq_none.mp hw]; rfl
  | some m =>
    rw [hw] at hx
    cases hs : s.maps x with
    | none => rw [hs] at hx; cases hx
    | some a =>
      rw [hs] at hx
      cases hx with
      | some hm =>
        rw [World.address, hw, Contents.address_eq hs]
        change (m.find key).join = _
        rw [hm.find, FiniteMap.lookup_map]
        cases a.lookup key <;> rfl

theorem Matches.exec_ok {call : Memory × Call ι K} (hlegal : Legal w call) {r : Reply}
    (hrun : StableMap.exec w call = .ok (w', r)) :
    r = (spec s call).2 ∧ Matches w' (spec s call).1 :=
  (h.exec call hlegal).returns w' r hrun

theorem Matches.address_run {calls : List (Memory × Call ι K)}
    (hlegal : Calls.Guarded StableMap.exec Legal w calls) {rs : List Reply}
    (hrun : run StableMap.exec w calls = .ok (w', rs)) (haddress : w.address x key = some v)
    (hlasts : Lasts x key calls) : w'.address (followAll x calls) key = some v := by
  induction calls generalizing w s x rs with
  | nil =>
    cases hrun
    exact haddress
  | cons call rest ih =>
    obtain ⟨w₁, r, rs', hx, hrest, -⟩ := run_cons_ok hrun
    obtain ⟨-, h₁⟩ := h.exec_ok hlegal.1 hx
    rw [h.address] at haddress
    have hnext := h.address_spec hlegal.1 haddress hlasts.1
    rw [← h₁.address] at hnext
    exact ih h₁ (hlegal.2 w₁ r hx) hrest hnext hlasts.2

omit [DecidableEq ι] [EquivBEq K] [LawfulHashable K] in
theorem Matches.holds_iff (p : ι × K) (v : ℕ) : w.Holds p v ↔ s.Holds p v := by
  have hx := h.maps p.1
  cases hw : w.maps p.1 with
  | none => simp [World.Holds, Contents.Holds, hw, h.maps_eq_none.mp hw]
  | some m =>
    rw [hw] at hx
    cases hs : s.maps p.1 with
    | none => rw [hs] at hx; cases hx
    | some a =>
      rw [hs] at hx
      cases hx with
      | some hm => simp [World.Holds, Contents.Holds, hw, hs, hm.entries.mem_iff,
          FiniteMap.entries_map]

omit [DecidableEq ι] in
/-- Two keys with one value object are one key of one map. -/
theorem Matches.address_unique {key' : K} (hx : w.address x key = some v)
    (hy : w.address y key' = some v) : x = y ∧ (key == key') = true := by
  rw [h.address] at hx hy
  obtain ⟨a, ha, hlookup⟩ := Contents.exists_of_address hx
  obtain ⟨b, hb, hlookup'⟩ := Contents.exists_of_address hy
  obtain ⟨k, hmem, hkey⟩ := FiniteMap.exists_of_lookup hlookup
  obtain ⟨l, hmem', hkey'⟩ := FiniteMap.exists_of_lookup hlookup'
  have heq := h.objects.unique (x, k) (y, l) v ⟨a, ha, hmem⟩ ⟨b, hb, hmem'⟩
  cases heq
  exact ⟨rfl, BEq.trans (BEq.symm hkey) hkey'⟩

end

omit [DecidableEq ι] [EquivBEq K] [LawfulHashable K] in
theorem matches_start : Matches (World.start : World ι K) Contents.start where
  maps _ := .none
  created := rfl
  objects := .empty fun x n h => by
    obtain ⟨a, ha, -⟩ := h
    cases ha

/-- No run stops at a value object. After one that returns, keys that were kept since any point
of the run have their values where they had them; the values of different keys are different
objects; every value object that was created is the value of a key or was deleted once, and was
deleted if no map is left. The calls reply as they would on finite maps. -/
theorem addresses_stable (before after : List (Memory × Call ι K))
    (hlegal : Calls.Guarded exec Legal World.start (before ++ after)) :
    Calls.run exec World.start (before ++ after) ≠ .error .fault ∧
    ∀ (w w' : World ι K) (rs rs' : List Reply),
      Calls.run exec World.start before = .ok (w, rs) → Calls.run exec w after = .ok (w', rs') →
      rs ++ rs' = (Calls.total spec Contents.start (before ++ after)).2 ∧
      (∀ x key, w'.address x key =
        (Calls.total spec Contents.start (before ++ after)).1.address x key) ∧
      (∀ x key v, w.address x key = some v → Lasts x key after →
        w'.address (followAll x after) key = some v) ∧
      (∀ x y key key' v, w'.address x key = some v → w'.address y key' = some v →
        x = y ∧ (key == key') = true) ∧ Ledger w'.Holds w'.created w'.deleted ∧
      ((∀ x, w'.maps x = none) → w'.deleted.Perm (List.range w'.created)) := by
  have hstep : ∀ (w : World ι K) (s : Contents ι K) (call : Memory × Call ι K) w' r,
      Matches w s → Legal w call → exec w call = .ok (w', r) →
      r = (spec s call).2 ∧ Matches w' (spec s call).1 :=
    fun w s call w' r h hcall hrun => h.exec_ok hcall hrun
  refine ⟨run_avoids (fun w => ∃ s, Matches w s) ?_ ?_ ⟨_, matches_start⟩ hlegal, ?_⟩
  case refine_1 =>
    rintro w call w' r ⟨s, h⟩ hcall hrun
    exact ⟨_, (h.exec_ok hcall hrun).2⟩
  case refine_2 =>
    rintro w call ⟨s, h⟩ hcall
    exact (h.exec call hcall).runs
  case refine_3 =>
    intro w w' rs rs' hbefore hafter
    obtain ⟨hlegal₁, hlegal₂⟩ := guarded_of_append hlegal
    obtain ⟨-, h⟩ := run_simulates Matches hstep matches_start hlegal₁ hbefore
    obtain ⟨hreplies, h'⟩ := run_simulates Matches hstep matches_start hlegal
      (run_append hbefore hafter)
    have hledger := h'.objects.congr h'.holds_iff
    refine ⟨hreplies, h'.address, fun x key v hx hlasts => ?_, fun x y key key' v => ?_, hledger,
      fun hnone => hledger.settled ?_⟩
    · exact h.address_run (hlegal₂ w rs hbefore) hafter hx hlasts
    · exact h'.address_unique
    · rintro p n ⟨m, hm, -⟩
      rw [hnone] at hm
      cases hm

/-- A slot of sixteen bytes, and room for every table. -/
def onHeap (call : Call Bool ℕ) : Memory × Call Bool ℕ := (⟨16, fun _ => true⟩, call)

def filledMap : List (Memory × Call Bool ℕ) := [.construct false, .subscript false 1].map onHeap

def movedMap : List (Memory × Call Bool ℕ) :=
  [.moveConstruct true false, .reserve true 40, .subscript true 17, .erase true 17,
    .clear false].map onHeap

theorem addresses_stable_movedMap : ∃ (w w' : World Bool ℕ) (rs rs' : List Reply),
      Calls.run exec World.start filledMap = .ok (w, rs) ∧
      Calls.run exec w movedMap = .ok (w', rs') ∧
      w.address false 1 = some 0 ∧ w'.address true 1 = some 0 ∧
      rs ++ rs' = (Calls.total spec Contents.start (filledMap ++ movedMap)).2 ∧
      Ledger w'.Holds w'.created w'.deleted := by
  have hall := (addresses_stable filledMap movedMap (by decide +kernel)).2 _ _ _ _ rfl rfl
  have hfilled := hall.2.2.1 false 1 0 rfl (by simp [Lasts, Keeps, follow, movedMap, onHeap])
  exact ⟨_, _, _, _, rfl, rfl, rfl, hfilled, hall.1, hall.2.2.2.2.1⟩

end Equilibrium.StableMap
