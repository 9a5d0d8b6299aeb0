import Equilibrium.Containers.VectorSlots
import Equilibrium.Library.Calls

/-! Runs of calls on `Vector` objects, and the same calls on lists. -/

namespace Equilibrium.Vector

open AllocationSize Library.Fallible Library.SlotArray Function List Option

variable {α ι : Type} [DecidableEq ι] (e : Element α)

section Lists

def specLook (t : ι → List α) : Source ι α → α
  | .value v => v
  | .element y index => (t y).getD index e.fresh

def specFetch (t : ι → List α) : Source ι α × Bool → (ι → List α) × α
  | (.element y index, true) =>
    let v := (t y).getD index e.fresh
    (Function.update t y ((t y).set index (e.moved v)), v)
  | (src, _) => (t, specLook e t src)

def specFetchAll (t : ι → List α) : List (Source ι α × Bool) → (ι → List α) × List α
  | [] => (t, [])
  | arg :: rest =>
    let (t, v) := specFetch e t arg
    let (t, vs) := specFetchAll t rest
    (t, v :: vs)

def specEmplace (t : ι → List α) (x : ι) (args : List (Source ι α × Bool))
    (build : List α → α) : (ι → List α) × α :=
  let (t, vs) := specFetchAll e t args
  (Function.update t x (t x ++ [build vs]), build vs)

def inserted (xs : List α) (pos : ℕ) (vs : List α) : List α := xs.take pos ++ (vs ++ xs.drop pos)

def specExec (t : ι → List α) : Call ι α → (ι → List α) × Reply α
  | .construct x | .clear x | .reset x => (Function.update t x [], .done)
  | .constructCount x count _ => (Function.update t x (List.replicate count e.fresh), .done)
  | .constructFill x count src _ | .assignFill x count src _ =>
    (Function.update t x (List.replicate count (specLook e t src)), .done)
  | .constructRange x args | .assignRange x args =>
    (Function.update t x (args.map fun arg => specLook e t arg.1), .done)
  | .constructReserve x reserveCount kForData _ =>
    (Function.update t x (if kForData then List.replicate reserveCount e.fresh else []), .done)
  | .constructList x values _ => (Function.update t x values, .done)
  | .copyConstruct x y _ | .copyAssign x y _ => (Function.update t x (t y), .done)
  | .moveConstruct x y => (Function.update (Function.update t x (t y)) y [], .done)
  | .moveAssign x y =>
    (if x = y then t else Function.update (Function.update t x (t y)) y [], .done)
  | .resizeFill x newSize src _ =>
    (Function.update t x (resized (t x) newSize (specLook e t src)), .done)
  | .resize x newSize _ => (Function.update t x (resized (t x) newSize e.fresh), .done)
  | .reserve _ _ _ => (t, .done)
  | .shrinkToFit x _ => (t, .index (t x).length)
  | .pushBack x arg _ => ((specEmplace e t x [arg] (·.headD e.fresh)).1, .done)
  | .emplaceBack x args build _ =>
    let (t, v) := specEmplace e t x args build
    (t, .value v)
  | .popBack x => (Function.update t x (t x).dropLast, .done)
  | .insert x pos arg _ =>
    let (t, v) := specFetch e t arg
    (Function.update t x (inserted (t x) pos [v]), .index pos)
  | .insertCount x pos count src _ =>
    (Function.update t x (inserted (t x) pos (List.replicate count (specLook e t src))), .done)
  | .insertRange x pos _ args _ =>
    (Function.update t x (inserted (t x) pos (args.map (specLook e t))), .done)
  | .eraseAt x pos => (Function.update t x ((t x).eraseIdx pos), .found (pos < (t x).length))
  | .erasePointer x offset =>
    if offset < 0 then (t, .found false)
    else (Function.update t x ((t x).eraseIdx offset.toNat),
      .found (offset.toNat < (t x).length))
  | .eraseRange x first last =>
    (Function.update t x ((t x).take first ++ (t x).drop last), .index first)
  | .swap x y => (Function.update (Function.update t x (t y)) y (t x), .done)

end Lists

section Guards

def Present (sizes : ι → ℕ) : Source ι α → Prop
  | .value _ => True
  | .element y index => index < sizes y

def Names (x : ι) : Source ι α → Prop
  | .value _ => False
  | .element y _ => y = x

def sizes (s : World ι α) : ι → ℕ := fun z => (s z).size

/-- What the callers of `Vector` see to. -/
def Legal (s : World ι α) : Call ι α → Prop
  | .constructFill x _ src _ => Present (sizes s) src ∧ ¬Names x src
  | .constructRange x args => ∀ arg ∈ args, Present (sizes s) arg.1 ∧ ¬Names x arg.1
  | .copyConstruct x y _ | .moveConstruct x y => x ≠ y
  | .resizeFill _ _ src _ | .assignFill _ _ src _ => Present (sizes s) src
  | .pushBack _ arg _ => Present (sizes s) arg.1
  | .emplaceBack _ args _ _ | .assignRange _ args => ∀ arg ∈ args, Present (sizes s) arg.1
  | .popBack x => 0 < (s x).size
  | .insert x pos arg _ => pos ≤ (s x).size ∧ Present (sizes s) arg.1
  | .insertCount x pos count src _ => (count = 0 ∨ pos ≤ (s x).size) ∧ Present (sizes s) src
  | .insertRange x pos count args _ =>
    (count = 0 ∨ pos ≤ (s x).size) ∧ ∀ arg ∈ args, Present (sizes s) arg
  | .eraseRange x first last => first ≤ last ∧ last ≤ (s x).size
  | _ => True

/-- An `assign` is not given elements of its own vector, nor is the `insert` of a range, which
comes upon the same elements in both of its passes. -/
def Apart : Call ι α → Prop
  | .assignFill x count src _ => count = 0 ∨ ¬Names x src
  | .assignRange x args => ∀ arg ∈ args, ¬Names x arg.1
  | .insertRange x _ count args _ => count = args.length ∧ ∀ arg ∈ args, ¬Names x arg
  | _ => True

def Refusal (s : World ι α) : Call ι α → Prop
  | .constructCount _ count granted | .constructFill _ count _ granted
  | .constructReserve _ count _ granted => Denied e granted count
  | .constructList _ values granted => Denied e granted values.length
  | .constructRange _ args | .assignRange _ args =>
    ∃ arg ∈ args, Denied e arg.2 (2 * args.length)
  | .copyConstruct _ y granted => Denied e granted (s y).size
  | .copyAssign x y granted => x ≠ y ∧ Denied e granted (s y).size
  | .resizeFill x newSize _ granted | .resize x newSize granted | .reserve x newSize granted
  | .assignFill x newSize _ granted => (s x).capacity < newSize ∧ Denied e granted newSize
  | .shrinkToFit x granted => Denied e granted (s x).size
  | .pushBack x _ granted | .emplaceBack x _ _ granted | .insert x _ _ granted =>
    (s x).size = (s x).capacity ∧ Denied e granted (grown (s x).size)
  | .insertCount x _ count _ granted | .insertRange x _ count _ granted =>
    min (s x).capacity memSizeMax < (s x).size + count ∧
      Denied e granted (grown ((s x).size + count))
  | _ => False

def abs (s : World ι α) : ι → List α := fun z => (s z).slots.reduceOption

/-- The call does on the vectors what it does on the lists, and the constructed slots are those
of the elements, unless a block is not to be had and the call ends the program. -/
def Behaves (s : World ι α) (c : Call ι α) : Prop :=
  match exec e s c with
  | .ok (s', r) => abs s' = (specExec e (abs s) c).1 ∧ r = (specExec e (abs s) c).2 ∧
      ∀ z, FirstConstructed (s' z).slots (s' z).size
  | .error .fatal => Refusal e s c
  | .error _ => False

instance decidablePresent (sizes : ι → ℕ) : ∀ src : Source ι α, Decidable (Present sizes src)
  | .value _ => isTrue trivial
  | .element y index => inferInstanceAs (Decidable (_ < _))

instance decidableNames (x : ι) : ∀ src : Source ι α, Decidable (Names x src)
  | .value _ => isFalse False.elim
  | .element y _ => inferInstanceAs (Decidable (y = x))

instance decidableLegal (s : World ι α) : ∀ c : Call ι α, Decidable (Legal s c)
  | .constructFill x _ src _ => inferInstanceAs (Decidable (_ ∧ _))
  | .constructRange x args =>
    inferInstanceAs (Decidable (∀ arg ∈ args, Present (sizes s) arg.1 ∧ ¬Names x arg.1))
  | .copyConstruct x y _ | .moveConstruct x y => inferInstanceAs (Decidable (x ≠ y))
  | .resizeFill _ _ src _ | .assignFill _ _ src _ => decidablePresent (sizes s) src
  | .pushBack _ arg _ => decidablePresent (sizes s) arg.1
  | .emplaceBack _ args _ _ | .assignRange _ args =>
    inferInstanceAs (Decidable (∀ arg ∈ args, Present (sizes s) arg.1))
  | .popBack x => inferInstanceAs (Decidable (_ < _))
  | .insert x pos arg _ =>
    inferInstanceAs (Decidable (_ ∧ _))
  | .insertCount x pos count src _ =>
    inferInstanceAs (Decidable (_ ∧ _))
  | .insertRange x pos count args _ => inferInstanceAs (Decidable (_ ∧ _))
  | .eraseRange x first last => inferInstanceAs (Decidable (_ ∧ _))
  | .construct _ | .constructCount _ _ _ | .constructReserve _ _ _ _ | .constructList _ _ _
  | .copyAssign _ _ _ | .moveAssign _ _ | .resize _ _ _ | .reserve _ _ _ | .shrinkToFit _ _
  | .eraseAt _ _ | .erasePointer _ _ | .clear _ | .reset _ | .swap _ _ => isTrue trivial

instance decidableApart : ∀ c : Call ι α, Decidable (Apart c)
  | .assignFill x count src _ => inferInstanceAs (Decidable (_ ∨ _))
  | .assignRange x args => inferInstanceAs (Decidable (∀ arg ∈ args, ¬Names x arg.1))
  | .insertRange x _ count args _ =>
    inferInstanceAs (Decidable (_ ∧ _))
  | .construct _ | .constructCount _ _ _ | .constructFill _ _ _ _ | .constructRange _ _
  | .constructReserve _ _ _ _ | .constructList _ _ _ | .copyConstruct _ _ _ | .moveConstruct _ _
  | .copyAssign _ _ _ | .moveAssign _ _ | .resizeFill _ _ _ _ | .resize _ _ _ | .reserve _ _ _
  | .shrinkToFit _ _ | .pushBack _ _ _ | .emplaceBack _ _ _ _ | .popBack _ | .insert _ _ _ _
  | .insertCount _ _ _ _ _ | .eraseAt _ _ | .erasePointer _ _ | .eraseRange _ _ _ | .clear _
  | .reset _ | .swap _ _ => isTrue trivial

end Guards

section Worlds

variable {s : World ι α} {t : ι → List α} {x : ι} {v : Vector α} {xs : List α}

def Hold (s : World ι α) (t : ι → List α) : Prop := ∀ z, Holds (s z) (t z)

theorem Hold.update (h : Hold s t) (hv : Holds v xs) :
    Hold (Function.update s x v) (Function.update t x xs) := by
  refine (forall_update_iff s fun z v => Holds v (Function.update t x xs z)).mpr ⟨?_, ?_⟩
  · rw [update_self]
    exact hv
  · intro z hne
    rw [update_of_ne hne]
    exact h z

theorem Hold.update_left (h : Hold s t) (hv : Holds v (t x)) : Hold (Function.update s x v) t := by
  have hupdate := h.update (x := x) hv
  rw [update_eq_self] at hupdate
  exact hupdate

section

omit [DecidableEq ι]

theorem Hold.abs_eq (h : Hold s t) : abs s = t := funext fun z => (h z).reduceOption

theorem Hold.sizes_eq (h : Hold s t) : sizes s = fun z => (t z).length := funext fun z => (h z).size

end

variable {src : Source ι α}

theorem specLook_update (h : ¬Names x src) (xs : List α) :
    specLook e (Function.update t x xs) src = specLook e t src := by
  cases src with
  | value v => rfl
  | element y index => rw [specLook, update_of_ne h, specLook]

theorem present_update (h : ¬Names x src) (hpresent : Present (fun z => (t z).length) src)
    (xs : List α) : Present (fun z => (Function.update t x xs z).length) src := by
  cases src with
  | value v => trivial
  | element y index =>
    rw [Present, update_of_ne h]
    exact hpresent

omit [DecidableEq ι] in
theorem getD_eq {index : ℕ} (h : index < xs.length) (d : α) : xs.getD index d = xs[index] := by
  rw [getD_eq_getElem?_getD, getElem?_eq_getElem h]
  rfl

end Worlds

section Arguments

variable {s : World ι α} {t : ι → List α} {x : ι}

theorem look_eq (h : Hold s t) {freed : Option ι} (hpresent : Present (fun z => (t z).length) src)
    (hapart : ∀ x ∈ freed, ¬Names x src) : look freed s src = .ok (specLook e t src) := by
  cases src with
  | value v => rfl
  | element y index =>
    have hlt : index < (t y).length := hpresent
    have hkept : freed ≠ some y := fun hfreed => hapart y hfreed rfl
    rw [look, if_neg hkept, (h y).read_eq,
      getElem?_eq_getElem hlt, specLook, getD_eq hlt]
    rfl

omit [DecidableEq ι] in
/-- A vector out of which an element was moved. -/
theorem withSlots_moved (h : Hold s t) (y : ι) (index : ℕ) (u : α) :
    ∃ v, v = (s y).withSlots (holding ((t y).set index u) (s y).capacity) (s y).size ∧
      Holds v ((t y).set index u) ∧ v.capacity = (s y).capacity := by
  have hroom := (h y).le
  have hlength : ((t y).set index u).length ≤ (s y).capacity := by
    rw [length_set]
    exact hroom
  refine ⟨_, rfl, holds_withSlots rfl ?_ hlength, capacity_withSlots (length_holding hlength) _⟩
  rw [length_set, (h y).size]

theorem fetch_eq (h : Hold s t) {arg : Source ι α × Bool}
    (hpresent : Present (fun z => (t z).length) arg.1) :
    ∃ s', fetch e s arg = .ok (s', (specFetch e t arg).2) ∧ Hold s' (specFetch e t arg).1 ∧
      (∀ z, (s' z).capacity = (s z).capacity) ∧
        ∀ z, ((specFetch e t arg).1 z).length = (t z).length := by
  obtain ⟨src, moves⟩ := arg
  cases src with
  | value v => exact ⟨s, rfl, h, fun _ => rfl, fun _ => rfl⟩
  | element y index =>
    have hlt : index < (t y).length := hpresent
    cases moves with
    | false =>
      refine ⟨s, ?_, h, fun _ => rfl, fun _ => rfl⟩
      change (step _ >>= fun _ => _) = .ok (s, specLook e t (.element y index))
      rw [(h y).read_eq, getElem?_eq_getElem hlt, specLook, getD_eq hlt]
      rfl
    | true =>
      obtain ⟨v, hv, hholds, hcapacity⟩ := withSlots_moved h y index (e.moved (t y)[index])
      refine ⟨Function.update s y v, ?_, ?_, fun z => ?_, fun z => ?_⟩
      · rw [fetch, (h y).slots, moveOut_holding e.moved hlt, specFetch, getD_eq hlt, hv]
        rfl
      · rw [specFetch, getD_eq hlt]
        exact h.update hholds
      · rw [update_apply]
        split
        case isTrue heq => rw [heq, hcapacity]
        case isFalse => rfl
      · change (Function.update t y _ z).length = _
        rw [update_apply]
        split
        case isTrue heq => rw [heq, length_set]
        case isFalse => rfl

theorem fetchAll_eq (h : Hold s t) {args : List (Source ι α × Bool)}
    (hpresent : ∀ arg ∈ args, Present (fun z => (t z).length) arg.1) :
    ∃ s', fetchAll e s args = .ok (s', (specFetchAll e t args).2) ∧
      Hold s' (specFetchAll e t args).1 ∧ (∀ z, (s' z).capacity = (s z).capacity) ∧
        ∀ z, ((specFetchAll e t args).1 z).length = (t z).length := by
  induction args generalizing s t with
  | nil => exact ⟨s, rfl, h, fun _ => rfl, fun _ => rfl⟩
  | cons arg rest ih =>
    obtain ⟨s₁, hfetch, h₁, hcapacity₁, hlength₁⟩ :=
      fetch_eq e h (hpresent arg mem_cons_self)
    obtain ⟨s₂, hfetchAll, h₂, hcapacity₂, hlength₂⟩ := ih h₁ fun arg harg => by
      rw [funext hlength₁]
      exact hpresent arg (mem_cons_of_mem _ harg)
    refine ⟨s₂, ?_, h₂, fun z => (hcapacity₂ z).trans (hcapacity₁ z),
      fun z => (hlength₂ z).trans (hlength₁ z)⟩
    rw [fetchAll, hfetch]
    change (fetchAll e s₁ rest >>= fun _ => _) = _
    rw [hfetchAll]
    rfl

end Arguments

section Pushes

variable {s : World ι α} {t : ι → List α} {x : ι}

theorem construct_behind {v : Vector α} {xs : List α} (h : Holds v xs)
    (hlt : xs.length < v.capacity) (value : α) :
    construct v.slots xs.length value = some (holding (xs ++ [value]) v.capacity) := by
  have hplace := place_behind [value] hlt h
  rw [place_singleton] at hplace
  exact hplace

variable {args : List (Source ι α × Bool)}

theorem insertAtEnd_returns (h : Hold s t)
    (hpresent : ∀ arg ∈ args, Present (fun z => (t z).length) arg.1) (build : List α → α)
    (granted : Bool) : Returns .fatal (Denied e granted (grown (s x).size))
      (fun p => Hold p.1 (specEmplace e t x args build).1 ∧ p.2 = (specEmplace e t x args build).2)
      (insertAtEnd e s x args build granted) := by
  obtain ⟨s', hfetch, hs', -, hlength⟩ := fetchAll_eq e h hpresent
  refine ((calculateNewCapacity_returns (s x).size).imp (denied_of_lt e) fun _ => id).bind ?_
  rintro _ rfl
  refine (allocate_returns e granted _).bind ?_
  rintro _ rfl
  rw [hfetch]
  have hsize : (s x).size = ((specFetchAll e t args).1 x).length := by
    rw [hlength x, (h x).size]
  have hlt := lt_grown (s x).size
  have hblock : replicate (grown (s x).size) (none : Option α) = replicate (s x).size none ++
        none :: replicate (grown (s x).size - ((s x).size + 1)) none := by
    rw [← replicate_succ, ← replicate_add]
    congr 1
    omega
  change Returns _ _ _ (step (construct _ _ _) >>= fun _ => _)
  rw [hblock, construct_at (by rw [length_replicate])]
  change Returns _ _ _ (moveElements e (s' x) _ >>= fun _ => _)
  rw [hsize, moveElements_eq e (hs' x)]
  refine ⟨hs'.update ⟨?_, ?_⟩, rfl⟩
  · rw [capacity_some]
    simp only [slots, getD_some, holding, length_append, length_cons, length_map, length_replicate,
      length_nil, map_append, map_nil, append_assoc, singleton_append]
    congr 3
    omega
  · rw [length_append]
    rfl

theorem emplaceBack_returns (h : Hold s t)
    (hpresent : ∀ arg ∈ args, Present (fun z => (t z).length) arg.1) (build : List α → α)
    (granted : Bool) :
    Returns .fatal ((s x).size = (s x).capacity ∧ Denied e granted (grown (s x).size))
      (fun p => Hold p.1 (specEmplace e t x args build).1 ∧ p.2 = (specEmplace e t x args build).2)
      (emplaceBack e s x args build granted) := by
  rw [emplaceBack]
  split
  case isTrue hlt =>
    obtain ⟨s', hfetch, hs', hcapacity, hlength⟩ := fetchAll_eq e h hpresent
    have hsize : (s' x).size = ((specFetchAll e t args).1 x).length := (hs' x).size
    have hroom : ((specFetchAll e t args).1 x).length < (s' x).capacity := by
      rw [hlength x, hcapacity x, ← (h x).size]
      exact hlt
    rw [hfetch]
    change Returns _ _ _ (step (construct _ _ _) >>= fun _ => _)
    rw [hsize, construct_behind (hs' x) hroom]
    refine ⟨hs'.update (holds_withSlots rfl ?_ ?_), rfl⟩
    · rw [length_append]
      rfl
    · rw [length_append]
      exact hroom
  case isFalse hge =>
    have hfull : (s x).size = (s x).capacity := by
      have hle := (h x).le
      rw [← (h x).size] at hle
      omega
    exact (insertAtEnd_returns e h hpresent build granted).imp (fun hd => ⟨hfull, hd⟩)
      fun _ => id

theorem pushBack_returns (h : Hold s t) (arg : Source ι α × Bool)
    (hpresent : Present (fun z => (t z).length) arg.1) (granted : Bool) :
    Returns .fatal ((s x).size = (s x).capacity ∧ Denied e granted (grown (s x).size))
      (fun s' => Hold s' (specEmplace e t x [arg] (·.headD e.fresh)).1)
      (pushBack e s x arg granted) := by
  refine (emplaceBack_returns e h ?_ _ granted).bind fun p hp => hp.1
  intro other hother
  rw [mem_singleton.mp hother]
  exact hpresent

theorem specEmplace_copy (t : ι → List α) (x : ι) (src : Source ι α) :
    (specEmplace e t x [(src, false)] (·.headD e.fresh)).1 =
      Function.update t x (t x ++ [specLook e t src]) := by
  cases src with
  | value v => rfl
  | element y index => rfl

theorem grown_le {n m : ℕ} (h : n < m) : grown n ≤ 2 * m := by
  rw [grown, kDefaultMult]
  split
  case isTrue => omega
  case isFalse => omega

theorem pushRange_returns (h : Hold s t) (args : List (Source ι α × Bool))
    (hpresent : ∀ arg ∈ args, Present (fun z => (t z).length) arg.1)
    (hapart : ∀ arg ∈ args, ¬Names x arg.1) :
    Returns .fatal (∃ arg ∈ args, Denied e arg.2 (2 * ((t x).length + args.length)))
      (fun s' => Hold s' (Function.update t x (t x ++ args.map fun arg => specLook e t arg.1)))
      (pushRange e s x args) := by
  induction args generalizing s t with
  | nil =>
    rw [map_nil, append_nil, update_eq_self]
    exact h
  | cons arg rest ih =>
    obtain ⟨src, granted⟩ := arg
    have hlast : Denied e granted (grown (s x).size) →
        Denied e granted (2 * ((t x).length + (rest.length + 1))) :=
      fun hd => hd.mono e (grown_le (by rw [(h x).size]; omega))
    have hfirst : Present (fun z => (t z).length) src := hpresent (src, granted) mem_cons_self
    have hpush := pushBack_returns e h (x := x) (src, false) hfirst granted
    refine Returns.bind (hpush.imp (fun hd => ⟨(src, granted), mem_cons_self, hlast hd.2⟩)
      fun _ => id) fun s₁ hs₁ => ?_
    rw [specEmplace_copy] at hs₁
    have hrest := ih hs₁
      (fun arg harg => present_update (hapart arg (mem_cons_of_mem _ harg))
        (hpresent arg (mem_cons_of_mem _ harg)) _)
      fun arg harg => hapart arg (mem_cons_of_mem _ harg)
    refine hrest.imp ?_ ?_
    · rintro ⟨arg, harg, hd⟩
      refine ⟨arg, mem_cons_of_mem _ harg, hd.mono e (Nat.le_of_eq ?_)⟩
      rw [update_self, length_append, length_singleton, length_cons]
      omega
    · intro s₂ hs₂
      have hmap : (rest.map fun arg =>
          specLook e (Function.update t x (t x ++ [specLook e t src])) arg.1) =
          rest.map fun arg => specLook e t arg.1 :=
        map_congr_left fun arg harg =>
          specLook_update e (hapart arg (mem_cons_of_mem _ harg)) _
      rw [hmap, update_idem, update_self, append_assoc] at hs₂
      exact hs₂

end Pushes

section Inserts

variable {s : World ι α} {t : ι → List α} {x : ι}

theorem checkedCountSum_returns (a b : ℕ) :
    Returns .fatal (memSizeMax < a + b) (fun sum => sum = a + b)
      (checked (checkedCountSum a b)) := by
  rw [checkedCountSum]
  split
  case isTrue => exact rfl
  case isFalse h => exact ⟨rfl, by omega⟩

theorem insert_returns (h : Hold s t) {pos : ℕ} {arg : Source ι α × Bool}
    (hpos : pos ≤ (s x).size) (hpresent : Present (fun z => (t z).length) arg.1)
    (granted : Bool) :
    Returns .fatal ((s x).size = (s x).capacity ∧ Denied e granted (grown (s x).size))
      (fun s' => Hold s' (Function.update (specFetch e t arg).1 x
        (inserted ((specFetch e t arg).1 x) pos [(specFetch e t arg).2])))
      (insert e s x pos arg granted) := by
  obtain ⟨s', hfetch, hs', hcapacity, hlength⟩ := fetch_eq e h hpresent
  have hsize : (s' x).size = (s x).size := by rw [(hs' x).size, hlength x, (h x).size]
  have hle : (s' x).size ≤ (s' x).capacity := (hs' x).size ▸ (hs' x).le
  have hgrow := growForWhen_returns e (hs' x) (hs' x).size.ge
    (decide ((s' x).size = (s' x).capacity)) granted ((s' x).size + 1)
    (lt_grown _) fun hfalse => by
      have hne := of_decide_eq_false hfalse
      omega
  rw [insert, hfetch]
  change Returns _ _ _ (growForWhen e (decide ((s' x).size = (s' x).capacity)) granted (s' x)
    (s' x).size >>= fun _ => _)
  rw [← hsize, ← hcapacity x]
  refine Returns.bind (hgrow.imp (fun hd => ⟨of_decide_eq_true hd.1, hd.2⟩) fun _ => id) ?_
  rintro w ⟨hw, hroom⟩
  have hpos' : pos ≤ ((specFetch e t arg).1 x).length := by rw [hlength x, ← (h x).size]; exact hpos
  obtain ⟨a, hhole, a', hplace, hholds⟩ := insertValues_returns e hw hpos'
    [(specFetch e t arg).2] (by rw [← (hs' x).size]; exact hroom)
  rw [length_singleton] at hhole
  rw [place_singleton] at hplace
  rw [hhole]
  change Returns _ _ _ (step (if pos < w.size then _ else _) >>= fun _ => _)
  have hplaced : (if pos < w.size then assign a pos (specFetch e t arg).2
      else construct a pos (specFetch e t arg).2) = some a' := by
    rw [← hplace, length_singleton]
    congr 1
    rw [eq_iff_iff]
    omega
  rw [hplaced]
  exact hs'.update hholds

omit [DecidableEq ι] in
/-- The room that an `insert` of several elements makes first. -/
theorem room_returns {v : Vector α} {xs : List α} (h : Holds v xs) {count : ℕ} {granted : Bool}
    {next : ℕ → Vector α → Except Fault (World ι α)} {goal : World ι α → Prop}
    (hnext : ∀ w, Holds w xs → xs.length + count ≤ w.capacity →
      Returns .fatal (min v.capacity memSizeMax < v.size + count ∧
        Denied e granted (grown (v.size + count))) goal (next (v.size + count) w)) :
    Returns .fatal (min v.capacity memSizeMax < v.size + count ∧
        Denied e granted (grown (v.size + count))) goal
      (checked (checkedCountSum v.size count) >>= fun required =>
        growForWhen e (decide (v.capacity < required)) granted v required >>= next required) := by
  refine ((checkedCountSum_returns v.size count).imp (fun hmax =>
    ⟨Nat.lt_of_le_of_lt (Nat.min_le_right _ _) hmax,
      denied_of_lt e (hmax.trans_le (le_grown _))⟩) fun _ => id).bind ?_
  rintro _ rfl
  have hfew : xs.length ≤ v.size + count := by rw [h.size]; omega
  have hgrow := growForWhen_returns e h hfew (decide (v.capacity < v.size + count)) granted
    (v.size + count)
    (le_grown _) fun hfalse => Nat.le_of_not_lt (of_decide_eq_false hfalse)
  refine Returns.bind (hgrow.imp (fun hd => ⟨Nat.lt_of_le_of_lt (Nat.min_le_left _ _)
    (of_decide_eq_true hd.1), hd.2⟩) fun _ => id) ?_
  rintro w ⟨hw, hroom⟩
  exact hnext w hw (h.size ▸ hroom)

theorem insertCount_returns (h : Hold s t) {pos count : ℕ} (hpos : count = 0 ∨ pos ≤ (s x).size)
    (hpresent : Present (fun z => (t z).length) src) (granted : Bool) :
    Returns .fatal (min (s x).capacity memSizeMax < (s x).size + count ∧
        Denied e granted (grown ((s x).size + count)))
      (fun s' => Hold s' (Function.update t x
        (inserted (t x) pos (replicate count (specLook e t src)))))
      (insertCount e s x pos count src granted) := by
  rw [insertCount]
  split
  case isTrue hzero =>
    rw [hzero, inserted, replicate_zero, nil_append, take_append_drop,
      update_eq_self]
    exact h
  case isFalse hne =>
    have hpos' : pos ≤ (t x).length := (h x).size ▸ hpos.resolve_left hne
    rw [look_eq e h hpresent fun _ hmem => absurd hmem (not_mem_none _)]
    refine room_returns e (h x) fun w hw hroom => ?_
    obtain ⟨a, hhole, a', hplace, hholds⟩ := insertValues_returns e hw hpos'
      (replicate count (specLook e t src)) (by rw [length_replicate]; exact hroom)
    rw [length_replicate] at hhole hplace hholds
    rw [hhole]
    change Returns _ _ _ (step (place _ _ _ _) >>= fun _ => _)
    rw [hplace]
    exact h.update hholds

theorem placeRange_eq (freed : Option ι) (hfreed : ∀ y ∈ freed, y = x)
    (h : ∀ z, z ≠ x → Holds (s z) (t z)) {args : List (Source ι α)}
    (hpresent : ∀ arg ∈ args, Present (fun z => (t z).length) arg)
    (hapart : ∀ arg ∈ args, ¬Names x arg) {i n : ℕ} {a : Slots α}
    (hplace : place (s x).slots i n (args.map (specLook e t)) = some a) :
    placeRange freed s x i n args = .ok (Function.update s x ((s x).withSlots a (s x).size)) := by
  induction args generalizing s i n with
  | nil =>
    cases hplace
    rw [withSlots_self, update_eq_self]
    rfl
  | cons arg rest ih =>
    have hlook : look freed s arg = .ok (specLook e t arg) := by
      have hnames := hapart arg mem_cons_self
      cases arg with
      | value v => rfl
      | element y index =>
        have hlt : index < (t y).length := hpresent (.element y index) mem_cons_self
        have hkept : freed ≠ some y := fun heq => hnames (hfreed y heq)
        rw [look, if_neg hkept, (h y hnames).read_eq, getElem?_eq_getElem hlt, specLook,
          getD_eq hlt]
        rfl
    rw [map_cons, place] at hplace
    obtain ⟨a₁, hput, hrest⟩ : ∃ a₁, (if 0 < n then assign (s x).slots i (specLook e t arg)
          else construct (s x).slots i (specLook e t arg)) = some a₁ ∧
        place a₁ (i + 1) (n - 1) (rest.map (specLook e t)) = some a := by
      split at hplace
      case isTrue hpos =>
        rw [if_pos hpos]
        exact bind_eq_some_iff.mp hplace
      case isFalse hzero =>
        rw [if_neg hzero]
        exact bind_eq_some_iff.mp hplace
    have hlength : a₁.length = (s x).capacity := by
      split at hput
      case isTrue => exact length_assign hput
      case isFalse => exact length_construct hput
    have hnext := ih (s := Function.update s x ((s x).withSlots a₁ (s x).size))
      (fun z hz => by rw [update_of_ne hz]; exact h z hz)
      (fun arg harg => hpresent arg (mem_cons_of_mem _ harg))
      (fun arg harg => hapart arg (mem_cons_of_mem _ harg))
      (by rw [update_self, slots_withSlots hlength]; exact hrest)
    rw [placeRange, hlook]
    change (step (if 0 < n then _ else _) >>= fun _ => _) = _
    rw [hput]
    change placeRange _ _ _ _ _ _ = _
    rw [hnext, update_idem, update_self, withSlots_withSlots]
    rfl

theorem insertRange_returns (h : Hold s t) {pos count : ℕ} {args : List (Source ι α)}
    (hpos : count = 0 ∨ pos ≤ (s x).size)
    (hpresent : ∀ arg ∈ args, Present (fun z => (t z).length) arg) (hcount : count = args.length)
    (hapart : ∀ arg ∈ args, ¬Names x arg) (granted : Bool) :
    Returns .fatal (min (s x).capacity memSizeMax < (s x).size + count ∧
        Denied e granted (grown ((s x).size + count)))
      (fun s' => Hold s' (Function.update t x (inserted (t x) pos (args.map (specLook e t)))))
      (insertRange e s x pos count args granted) := by
  rw [insertRange]
  split
  case isTrue hzero =>
    rw [length_eq_zero_iff.mp (hcount.symm.trans hzero), inserted, map_nil,
      nil_append, take_append_drop, update_eq_self]
    exact h
  case isFalse hne =>
    have hpos' : pos ≤ (t x).length := (h x).size ▸ hpos.resolve_left hne
    have hvalues : (args.map (specLook e t)).length = count := by rw [length_map, hcount]
    refine room_returns e (h x) fun w hw hroom => ?_
    obtain ⟨a, hhole, hlength, -⟩ := insert_eq e hw hpos' (args.map (specLook e t))
      (by rw [hvalues]; exact hroom)
    obtain ⟨a₁, hhole', a', hplace, hholds⟩ := insertValues_returns e hw hpos'
      (args.map (specLook e t)) (by rw [hvalues]; exact hroom)
    cases hhole.symm.trans hhole'
    rw [hvalues] at hhole hplace hholds
    have hrange := placeRange_eq e (s := Function.update s x (w.withSlots a w.size))
      (if decide ((s x).capacity < (s x).size + count) then some x else none)
      (fun y hy => by
        split at hy
        case isTrue => exact (mem_some_iff.mp hy).symm
        case isFalse => exact absurd hy (not_mem_none _))
      (fun z hz => by rw [update_of_ne hz]; exact h z) hpresent hapart
      (by rw [update_self, slots_withSlots hlength]; exact hplace)
    rw [hhole]
    change Returns _ _ _ (placeRange _ _ _ _ _ _ >>= fun _ => _)
    rw [hrange]
    change Hold (Function.update (Function.update (Function.update s x _) x _) x _) _
    rw [update_idem, update_idem, update_self, update_self,
      withSlots_withSlots]
    exact h.update hholds

end Inserts

section Steps

variable {s : World ι α} {t : ι → List α} {x : ι} {refused : Prop}

theorem update_returns (h : Hold s t) {xs : List α} {result : Except Fault (Vector α)}
    (hresult : Returns .fatal refused (fun v => Holds v xs) result) :
    Returns .fatal refused (fun p => Hold p.1 (Function.update t x xs) ∧ p.2 = .done)
      (update s x result) :=
  hresult.bind fun _ hv => ⟨h.update hv, rfl⟩

theorem renew_returns {v : Vector α} {ys : List α} (h : Holds v ys)
    {result : Except Fault (Vector α)} {post : Vector α → Prop}
    (hresult : Returns .fatal refused post result) :
    Returns .fatal refused post (renew v result) := by
  rw [renew, release_eq h]
  exact hresult

omit [DecidableEq ι] in
theorem reply_returns {r : Reply α} {result : Except Fault (World ι α)} {t' : ι → List α}
    (hresult : Returns .fatal refused (fun s' => Hold s' t') result) :
    Returns .fatal refused (fun p => Hold p.1 t' ∧ p.2 = r) (reply r result) :=
  hresult.bind fun _ hs => ⟨hs, rfl⟩

section

variable (h : Hold s t)
include h

theorem ofFill_returns {count : ℕ} {src : Source ι α}
    (hpresent : Present (fun z => (t z).length) src) (granted : Bool) :
    Returns .fatal (Denied e granted count)
      (fun v => Holds v (replicate count (specLook e t src)))
      (ofFill e s count src granted) := by
  rw [ofFill]
  split
  case isTrue =>
    rw [look_eq e h hpresent fun _ hmem => absurd hmem (not_mem_none _)]
    have hvalues := ofValues_returns e (replicate count (specLook e t src)) granted
    rw [length_replicate] at hvalues
    exact hvalues
  case isFalse hzero =>
    rw [Nat.eq_zero_of_not_pos hzero]
    exact holds_new

theorem resizeFill_returns {newSize : ℕ}
    (hpresent : t x = [] ∧ newSize = 0 ∨ Present (fun z => (t z).length) src) (granted : Bool) :
    Returns .fatal ((s x).capacity < newSize ∧ Denied e granted newSize)
      (fun s' => Hold s' (Function.update t x (resized (t x) newSize (specLook e t src))))
      (resizeFill e s x newSize src granted) := by
  rw [resizeFill, (h x).size]
  split
  case isTrue hlt =>
    have hsource : Present (fun z => (t z).length) src := hpresent.resolve_left fun hzero => by
      rw [hzero.2] at hlt
      exact Nat.not_lt_zero _ hlt
    rw [look_eq e h hsource fun _ hmem => absurd hmem (not_mem_none _)]
    exact (fillTo_returns e (h x) hlt (specLook e t src) granted).bind fun _ hv => h.update hv
  case isFalse hge =>
    have hle : newSize ≤ (t x).length := Nat.le_of_not_lt hge
    rw [resized_of_le hle]
    split
    case isTrue =>
      obtain ⟨w, heq, hw⟩ := shrinkTo_eq (h x) hle
      rw [heq]
      exact h.update hw
    case isFalse hge' =>
      rw [take_of_length_le (by omega), update_eq_self]
      exact h

theorem assignFill_returns {count : ℕ} {src : Source ι α}
    (hpresent : Present (fun z => (t z).length) src) (hapart : count = 0 ∨ ¬Names x src)
    (granted : Bool) : Returns .fatal ((s x).capacity < count ∧ Denied e granted count)
      (fun s' => Hold s' (Function.update t x (replicate count (specLook e t src))))
      (assignFill e s x count src granted) := by
  obtain ⟨w, hclear, hw, hcapacity⟩ := clear_eq (h x)
  have hcleared := h.update (x := x) hw
  have hsource : Function.update t x [] x = [] ∧ count = 0 ∨
      Present (fun z => (Function.update t x [] z).length) src :=
    hapart.imp (fun hzero => ⟨update_self .., hzero⟩)
      fun hnames => present_update hnames hpresent []
  have hresize := resizeFill_returns e hcleared hsource granted
  rw [update_self, hcapacity, update_idem, update_self] at hresize
  have hfilled : resized [] count (specLook e (Function.update t x []) src) =
      replicate count (specLook e t src) := by
    rw [resized, take_nil, nil_append, length_nil, Nat.sub_zero]
    cases hapart with
    | inl hzero => rw [hzero]; rfl
    | inr hnames => rw [specLook_update e hnames]
  rw [hfilled] at hresize
  rw [assignFill, hclear]
  exact hresize

theorem assignFill_own {count : ℕ} (hcount : 0 < count) (index : ℕ) (granted : Bool) :
    assignFill e s x count (.element x index) granted = .error .misuse := by
  obtain ⟨w, hclear, hw, -⟩ := clear_eq (h x)
  rw [assignFill, hclear]
  change resizeFill e (Function.update s x w) x count (.element x index) granted = _
  rw [resizeFill, update_self, hw.size, length_nil, if_pos hcount, look, update_self, hw.read_eq]
  rfl

theorem pushAll_returns {w : Vector α} (hw : Holds w [])
    (hpresent : ∀ arg ∈ args, Present (fun z => (t z).length) arg.1)
    (hapart : ∀ arg ∈ args, ¬Names x arg.1) :
    Returns .fatal (∃ arg ∈ args, Denied e arg.2 (2 * args.length))
      (fun s' => Hold s' (Function.update t x (args.map fun arg => specLook e t arg.1)))
      (pushRange e (Function.update s x w) x args) := by
  have hpush := pushRange_returns e (h.update hw) args
    (fun arg harg => present_update (hapart arg harg) (hpresent arg harg) []) hapart
  have hmap : (args.map fun arg => specLook e (Function.update t x []) arg.1) =
      args.map fun arg => specLook e t arg.1 :=
    map_congr_left fun arg harg => specLook_update e (hapart arg harg) []
  rw [hmap, update_self, update_idem, length_nil, Nat.zero_add] at hpush
  exact hpush

theorem copyAssign_returns (y : ι) (granted : Bool) :
    Returns .fatal (x ≠ y ∧ Denied e granted (s y).size)
      (fun s' => Hold s' (Function.update t x (t y))) (copyAssign e s x y granted) := by
  rw [copyAssign]
  split
  case isTrue heq =>
    rw [← heq, update_eq_self]
    exact h
  case isFalse hne =>
    rw [release_eq (h x), (h y).size]
    exact ((copyOf_returns e (h y) granted).imp (fun hd => ⟨hne, hd⟩) fun _ => id).bind
      fun _ hv => h.update hv

theorem replyFound_returns {w : Vector α} {b : Bool} {xs : List α}
    {result : Except Fault (Vector α × Bool)} (hresult : result = .ok (w, b)) (hw : Holds w xs) :
    Returns .fatal refused (fun p => Hold p.1 (Function.update t x xs) ∧ p.2 = .found b)
      (replyFound s x result) := by
  rw [hresult]
  exact ⟨h.update hw, rfl⟩

theorem exec_returns {c : Call ι α} (hlegal : Legal s c) (hapart : Apart c) :
    Returns .fatal (Refusal e s c)
      (fun p => Hold p.1 (specExec e t c).1 ∧ p.2 = (specExec e t c).2) (exec e s c) := by
  have hsizes := h.sizes_eq
  cases c with
  | construct x => exact update_returns h (renew_returns (h x) holds_new)
  | constructCount x count granted =>
    refine update_returns h (renew_returns (h x) ?_)
    have hvalues := ofValues_returns e (replicate count e.fresh) granted
    rw [length_replicate] at hvalues
    exact hvalues
  | constructFill x count src granted =>
    exact update_returns h (renew_returns (h x) (ofFill_returns e h (hsizes ▸ hlegal.1) granted))
  | constructRange x args =>
    refine reply_returns ?_
    rw [constructRange, release_eq (h x)]
    exact pushAll_returns e h holds_new (fun arg harg => hsizes ▸ (hlegal arg harg).1)
      fun arg harg => (hlegal arg harg).2
  | constructReserve x reserveCount kForData granted =>
    exact update_returns h (renew_returns (h x) (ofReserve_returns e reserveCount kForData granted))
  | constructList x values granted =>
    exact update_returns h (renew_returns (h x) (ofValues_returns e values granted))
  | copyConstruct x y granted =>
    rw [Refusal, (h y).size]
    exact update_returns h (renew_returns (h x) (copyOf_returns e (h y) granted))
  | moveConstruct x y =>
    refine reply_returns ?_
    rw [release_eq (h x)]
    exact (h.update (h y)).update holds_new
  | copyAssign x y granted => exact reply_returns (copyAssign_returns e h y granted)
  | moveAssign x y =>
    refine reply_returns ?_
    rw [moveAssign]
    split
    case isTrue heq =>
      change Hold s (if x = y then _ else _)
      rw [if_pos heq]
      exact h
    case isFalse hne =>
      rw [release_eq (h x)]
      change Hold _ (if x = y then _ else _)
      rw [if_neg hne]
      exact (h.update (h y)).update holds_new
  | resizeFill x newSize src granted =>
    exact reply_returns (resizeFill_returns e h (.inr (hsizes ▸ hlegal)) granted)
  | resize x newSize granted => exact update_returns h (resize_returns e (h x) newSize granted)
  | reserve x newReservedCapacity granted =>
    exact (reserve_returns e (h x) newReservedCapacity granted).bind
      fun _ hv => ⟨h.update_left hv, rfl⟩
  | shrinkToFit x granted =>
    rw [Refusal, (h x).size]
    exact (shrinkToFit_returns e (h x) granted).bind
      fun _ hv => ⟨h.update_left hv, congrArg Reply.index hv.size⟩
  | pushBack x arg granted =>
    exact reply_returns (pushBack_returns e h arg (hsizes ▸ hlegal) granted)
  | emplaceBack x args build granted =>
    have hpresent : ∀ arg ∈ args, Present (fun z => (t z).length) arg.1 :=
      fun arg harg => hsizes ▸ hlegal arg harg
    exact (emplaceBack_returns e h hpresent build granted).bind
      fun _ hp => ⟨hp.1, congrArg Reply.value hp.2⟩
  | popBack x =>
    obtain ⟨w, heq, hw⟩ := popBack_eq (h x) hlegal
    exact update_returns h (.of_eq heq hw)
  | insert x pos arg granted =>
    exact reply_returns (insert_returns e h hlegal.1 (hsizes ▸ hlegal.2) granted)
  | insertCount x pos count src granted =>
    exact reply_returns (insertCount_returns e h hlegal.1 (hsizes ▸ hlegal.2) granted)
  | insertRange x pos count args granted =>
    exact reply_returns (insertRange_returns e h hlegal.1
      (fun arg harg => hsizes ▸ hlegal.2 arg harg) hapart.1 hapart.2 granted)
  | eraseAt x pos =>
    obtain ⟨w, heq, hw⟩ := eraseAt_eq e (h x) pos
    exact replyFound_returns h heq hw
  | erasePointer x offset =>
    by_cases hnegative : offset < 0
    · have hfalse : erasePointer e (s x) offset = .ok (s x, false) := if_pos (.inl hnegative)
      rw [specExec, if_pos hnegative]
      have hsame : Function.update t x (t x) = t := update_eq_self x t
      have hreply : Returns Fault.fatal (Refusal e s (.erasePointer x offset))
          (fun p => Hold p.1 (Function.update t x (t x)) ∧ p.2 = .found false)
          (replyFound s x (erasePointer e (s x) offset)) :=
        replyFound_returns h hfalse (h x)
      rw [hsame] at hreply
      exact hreply
    · obtain ⟨w, heq, hw⟩ := eraseAt_eq e (h x) offset.toNat
      have hpointer : erasePointer e (s x) offset = eraseAt e (s x) offset.toNat := by
        rw [erasePointer]
        split
        case isTrue hout => rw [eraseAt, if_pos (by omega)]
        case isFalse => rfl
      rw [specExec, if_neg hnegative]
      exact replyFound_returns h (hpointer.trans heq) hw
  | eraseRange x first last =>
    obtain ⟨w, heq, hw⟩ := eraseRange_eq e (h x) hlegal.1 ((h x).size ▸ hlegal.2)
    exact Returns.bind (.of_eq heq hw) fun _ hv => ⟨h.update hv, rfl⟩
  | clear x =>
    obtain ⟨w, heq, hw, -⟩ := clear_eq (h x)
    exact update_returns h (.of_eq heq hw)
  | assignFill x count src granted =>
    exact reply_returns (assignFill_returns e h (hsizes ▸ hlegal) hapart granted)
  | assignRange x args =>
    obtain ⟨w, heq, hw, -⟩ := clear_eq (h x)
    refine reply_returns ?_
    rw [assignRange, heq]
    exact pushAll_returns e h hw (fun arg harg => hsizes ▸ hlegal arg harg) hapart
  | reset x =>
    refine update_returns h ?_
    rw [reset, release_eq (h x)]
    exact holds_new
  | swap x y => exact ⟨(h.update (h y)).update (h x), rfl⟩

theorem behaves {c : Call ι α} (hlegal : Legal s c) (hapart : Apart c) : Behaves e s c := by
  have hreturns := exec_returns e h hlegal hapart
  rw [Behaves, h.abs_eq]
  cases hexec : exec e s c with
  | ok p =>
    rw [hexec] at hreturns
    exact ⟨hreturns.1.abs_eq, hreturns.2, fun z => (hreturns.1 z).firstConstructed⟩
  | error fault =>
    rw [hexec] at hreturns
    obtain ⟨rfl, hrefusal⟩ := hreturns
    exact hrefusal

theorem exec_hold {c : Call ι α} (hlegal : Legal s c) (hapart : Apart c) {s' : World ι α}
    {r : Reply α} (hexec : exec e s c = .ok (s', r)) : Hold s' (specExec e t c).1 := by
  have hreturns := exec_returns e h hlegal hapart
  rw [hexec] at hreturns
  exact hreturns.1

end

end Steps

/-- In every run of calls in good order, started with empty vectors, the elements are those of
the lists and exactly their slots are constructed, as long as no `assign` is given elements of
its own vector, nor `insert` a range of them or one that it cannot pass over twice. -/
theorem behaves_as_list (calls : List (Call ι α))
    (hlegal : Library.Calls.Guarded (exec e) Legal (fun _ => new) calls)
    (hapart : Library.Calls.Guarded (exec e) (fun _ => Apart) (fun _ => new) calls) :
    Library.Calls.Guarded (exec e) (Behaves e) (fun _ => new) calls := by
  refine Library.Calls.guarded_of_invariant (fun s => ∃ t, Hold s t) ?_ ?_ ?_ hlegal hapart
  · rintro s c ⟨t, ht⟩ hc hc'
    exact behaves e ht hc hc'
  · rintro s c s' r ⟨t, ht⟩ hc hc' hexec
    exact ⟨_, exec_hold e ht hc hc' hexec⟩
  · exact ⟨fun _ => [], fun _ => holds_new⟩

section Aliases

variable {s : World ι α} {t : ι → List α} {x : ι}

/-- A call that is given one value by reference. -/
inductive Given (α : Type) where
  | pushBack
  | emplaceBack (build : List α → α)
  | insert (pos : ℕ)
  | insertCount (pos count : ℕ)
  | resizeFill (newSize : ℕ)
  | assignFill (count : ℕ)

def Given.call (x : ι) (src : Source ι α) (granted : Bool) : Given α → Call ι α
  | .pushBack => .pushBack x (src, false) granted
  | .emplaceBack build => .emplaceBack x [(src, false)] build granted
  | .insert pos => .insert x pos (src, false) granted
  | .insertCount pos count => .insertCount x pos count src granted
  | .resizeFill newSize => .resizeFill x newSize src granted
  | .assignFill count => .assignFill x count src granted

def Given.InRange (size : ℕ) : Given α → Prop
  | .insert pos | .insertCount pos _ => pos ≤ size
  | _ => True

def Given.Clears : Given α → Prop
  | .assignFill count => 0 < count
  | _ => False

/-- The call does with an element of the vector what it does with a copy `v` of it, and reads no
slot that is gone. -/
structure LikeCopy (s : World ι α) (x : ι) (index : ℕ) (v : α) (granted : Bool) (g : Given α) :
    Prop where
  same : exec e s (g.call x (.element x index) granted) = exec e s (g.call x (.value v) granted)
  safe : ∀ fault, exec e s (g.call x (.element x index) granted) = .error fault → fault = .fatal

theorem look_own (h : Hold s t) {index : ℕ} (hindex : index < (t x).length) :
    look none s (.element x index) = .ok (t x)[index] := by
  rw [look, (h x).read_eq, getElem?_eq_getElem hindex]
  rfl

theorem fetch_own (h : Hold s t) {index : ℕ} (hindex : index < (t x).length) :
    fetch e s (.element x index, false) = .ok (s, (t x)[index]) := by
  rw [fetch, (h x).read_eq, getElem?_eq_getElem hindex]
  rfl

theorem Given.exec_own (h : Hold s t) {index : ℕ} (hindex : index < (t x).length) (granted : Bool)
    (g : Given α) (hclears : ¬ g.Clears) : exec e s (g.call x (.element x index) granted) =
      exec e s (g.call x (.value (t x)[index]) granted) := by
  have hfetch := fetch_own e h hindex
  have hvalue : fetch e s (Source.value (t x)[index], false) = .ok (s, (t x)[index]) := rfl
  have hlook := look_own h hindex
  have hlookValue : look none s (Source.value (t x)[index]) = .ok (t x)[index] := rfl
  cases g with
  | pushBack =>
    simp only [call, exec, Vector.pushBack, Vector.emplaceBack, insertAtEnd, fetchAll, hfetch,
      hvalue]
  | emplaceBack build =>
    simp only [call, exec, Vector.emplaceBack, insertAtEnd, fetchAll, hfetch, hvalue]
  | insert pos => simp only [call, exec, Vector.insert, hfetch, hvalue]
  | insertCount pos count => simp only [call, exec, Vector.insertCount, hlook, hlookValue]
  | resizeFill newSize => simp only [call, exec, Vector.resizeFill, hlook, hlookValue]
  | assignFill count =>
    obtain ⟨w, hclear, hw, -⟩ := clear_eq (h x)
    have hzero : count = 0 := Nat.eq_zero_of_not_pos hclears
    have hsize : (Function.update s x w x).size = 0 := by
      rw [update_self, hw.size]
      rfl
    simp only [call, exec, Vector.assignFill, hclear, bind, Except.bind, Vector.resizeFill, hsize,
      hzero, if_neg (Nat.lt_irrefl 0)]

section

omit [DecidableEq ι]

theorem Given.legal {granted : Bool} (g : Given α) (hrange : g.InRange (s x).size)
    (hsrc : Present (sizes s) src) : Legal s (g.call x src granted) := by
  cases g with
  | pushBack => exact hsrc
  | emplaceBack build => exact forall_mem_singleton.mpr hsrc
  | insert pos => exact ⟨hrange, hsrc⟩
  | insertCount pos count => exact ⟨.inr hrange, hsrc⟩
  | resizeFill newSize => exact hsrc
  | assignFill count => exact hsrc

theorem Given.apart {granted : Bool} (g : Given α) (h : ¬ g.Clears) :
    Apart (g.call x src granted) := by
  cases g with
  | pushBack => exact trivial
  | emplaceBack build => exact trivial
  | insert pos => exact trivial
  | insertCount pos count => exact trivial
  | resizeFill newSize => exact trivial
  | assignFill count => exact .inl (Nat.eq_zero_of_not_pos h)

end

theorem fatal_of_behaves {c : Call ι α} (h : Behaves e s c) {fault : Fault}
    (hexec : exec e s c = .error fault) : fault = .fatal := by
  rw [Behaves, hexec] at h
  cases fault with
  | fatal => rfl
  | misuse => exact h.elim
  | dangling => exact h.elim

/-- For every element of a vector, every position and count. -/
theorem given_likeCopy_iff (h : Hold s t) {index : ℕ} (hindex : index < (t x).length)
    (granted : Bool) (g : Given α) (hrange : g.InRange (t x).length) :
    LikeCopy e s x index (t x)[index] granted g ↔ ¬ g.Clears := by
  constructor
  · intro hlike hclears
    cases g with
    | assignFill count =>
      have hexec : exec e s ((Given.assignFill count).call x (.element x index) granted) =
          .error .misuse := by
        change reply .done (assignFill e s x count (.element x index) granted) = _
        rw [assignFill_own e h hclears]
        rfl
      cases hlike.safe _ hexec
    | _ => exact hclears
  · intro hclears
    have hlegal : Legal s (g.call x (.element x index) granted) := by
      refine g.legal ?_ ?_
      · rw [(h x).size]
        exact hrange
      · rw [Present, sizes, (h x).size]
        exact hindex
    exact ⟨g.exec_own e h hindex granted hclears,
      fun _ => fatal_of_behaves e (behaves e h hlegal (g.apart hclears))⟩

end Aliases

section Examples

theorem wordSize_pos : 0 < 4 := by decide

/-- `i32` elements. -/
def word : Element ℕ := ⟨4, wordSize_pos, 0, id⟩

/-- Insertions of fewer and of more elements than are behind them, with and without growth. -/
theorem behaves_as_list_inserts :
    Library.Calls.Guarded (exec word) (Behaves word) (fun _ : Bool => new)
      [.constructList true [1, 2, 3, 4] true, .insert true 1 (.element true 3, false) true,
        .reserve true 20 true, .insertCount true 4 3 (.element true 0) true,
        .insertCount true 2 2 (.value 7) true, .copyConstruct false true true,
        .insertRange false 9 2 [.element true 0, .value 9] true, .eraseRange true 1 4,
        .assignFill false 2 (.element true 1) true, .erasePointer true (-1),
        .eraseAt true 0, .shrinkToFit true true] :=
  behaves_as_list word _ (by decide +kernel) (by decide +kernel)

theorem assign_own_element : Library.Calls.Guarded (exec word) Legal (fun _ : Unit => new)
        [.constructList () [1, 2] true, .assignFill () 3 (.element () 0) true] ∧
      ¬Library.Calls.Guarded (exec word) (Behaves word) (fun _ : Unit => new)
        [.constructList () [1, 2] true, .assignFill () 3 (.element () 0) true] := by
  refine ⟨by decide +kernel, ?_⟩
  rintro ⟨-, h⟩
  obtain ⟨hown, -⟩ := h _ _ rfl
  exact hown

def fullVector : Vector ℕ := ⟨some [some 1, some 2], 2⟩

theorem holds_full : Holds fullVector [1, 2] := ⟨rfl, rfl⟩

theorem given_likeCopy_iff_full :
    LikeCopy word (fun _ : Unit => fullVector) () 1 2 true (.insertCount 0 3) ↔
      ¬ (Given.insertCount 0 3 : Given ℕ).Clears :=
  given_likeCopy_iff word (fun _ => holds_full) (by decide) true (.insertCount 0 3) (Nat.zero_le 2)

theorem given_not_likeCopy_full : ¬ ∀ (s : World Unit ℕ) (t : Unit → List ℕ), Hold s t → ∀ x index,
    ∀ hindex : index < (t x).length, ∀ granted (g : Given ℕ), g.InRange (t x).length →
      LikeCopy word s x index (t x)[index] granted g := by
  intro h
  have hlike := h (fun _ => fullVector) (fun _ => [1, 2]) (fun _ => holds_full) () 0 (by decide)
    true (.assignFill 3) trivial
  have hexec : exec word (fun _ : Unit => fullVector) (.assignFill () 3 (.element () 0) true) =
      .error .misuse := rfl
  cases hlike.safe _ hexec

end Examples

end Equilibrium.Vector
