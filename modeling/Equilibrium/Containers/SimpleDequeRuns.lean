import Equilibrium.Containers.SimpleDequeRing
import Equilibrium.Library.Calls
import Equilibrium.Library.Fallible

/-! Runs of calls on `SimpleDeque` objects: when they behave as lists. -/

namespace Equilibrium.SimpleDeque

open AllocationSize List
open Function (update update_self update_of_ne update_eq_self)
open Library.Fallible (bind_eq_ok)

variable {α ι : Type} [DecidableEq ι] (e : Element α)

def abs (s : World ι α) : ι → List α := fun x => contents (s x)

def shape (d : SimpleDeque α) : ℕ × ℕ × ℕ := (d.capacity, d.frontIndex, d.size)

section Update

variable {s : World ι α} {d : SimpleDeque α} {x : ι}

theorem abs_update : abs (update s x d) = update (abs s) x (contents d) :=
  Function.comp_update contents s x d

theorem abs_update_self (h : contents d = contents (s x)) : abs (update s x d) = abs s := by
  rw [abs_update, h]
  exact update_eq_self x (abs s)

theorem ring_update (hs : ∀ z, Ring (s z)) (hd : Ring d) : ∀ z, Ring (update s x d z) :=
  (Function.forall_update_iff s fun _ d => Ring d).mpr ⟨hd, fun z _ => hs z⟩

theorem shape_update (h : shape d = shape (s x)) (z : ι) :
    shape (update s x d z) = shape (s z) := by
  have hshapes := congrFun (Function.comp_update shape s x d) z
  rw [h] at hshapes
  exact hshapes.trans (congrFun (update_eq_self x (shape ∘ s)) z)

end Update

section Arguments

def Names (x : ι) : Argument ι α → Prop
  | .value _ => False
  | .element y _ _ => y = x

instance (x : ι) : ∀ arg : Argument ι α, Decidable (Names x arg)
  | .value _ => isFalse False.elim
  | .element y _ _ => inferInstanceAs (Decidable (y = x))

variable {s₀ s : World ι α} {freed : Option ι} {arg : Argument ι α} {args : List (Argument ι α)}

/-- In a state with the indices of the one in which the reference was taken, it refers to the
same element. -/
theorem fetch_eq (hs : ∀ z, Ring (s z)) (hshape : ∀ z, freed ≠ some z → shape (s z) = shape (s₀ z))
    (hs₀ : ∀ z, Ring (s₀ z)) (hpresent : Legal.Present s₀ arg) (hapart : ∀ x ∈ freed, ¬Names x arg) :
    ∃ s', fetch e freed s (refer s₀ arg) = .ok (s', (specFetch e (abs s) arg).2) ∧
      abs s' = (specFetch e (abs s) arg).1 ∧ (∀ z, Ring (s' z)) ∧
        ∀ z, shape (s' z) = shape (s z) := by
  cases arg with
  | value v => exact ⟨s, rfl, rfl, hs, fun _ => rfl⟩
  | element y index moves =>
    have hkept : freed ≠ some y := fun hfreed => hapart y hfreed rfl
    have hsame := hshape y hkept
    obtain ⟨hcap, hrest⟩ := Prod.mk.inj hsame
    obtain ⟨hfront, hsize⟩ := Prod.mk.inj hrest
    have hindex : index < (s y).size := hsize ▸ hpresent
    have hslot : elementSlot (s₀ y) index = ((s y).frontIndex + index) % (s y).slots.length := by
      rw [(hs₀ y).elementSlot_eq hpresent, (hs y).length, (hs₀ y).length, hfront, hcap]
    rw [refer, fetch, if_neg hkept, hslot, (hs y).access_eq hindex e.fresh]
    cases moves with
    | false => exact ⟨s, rfl, rfl, hs, fun _ => rfl⟩
    | true =>
      obtain ⟨d, hstore, hd, hcontents, hcap', hfront', hsize'⟩ :=
        (hs y).store_eq hindex (e.moved ((contents (s y)).getD index e.fresh))
      refine ⟨update s y d, ?_, ?_, ring_update hs hd, shape_update ?_⟩
      · change (store (s y) _ _ >>= fun d => _) = _
        rw [hstore]
        rfl
      · rw [abs_update, hcontents]
        rfl
      · rw [shape, hcap', hfront', hsize']
        rfl

theorem fetch_dangling {x : ι} (hfreed : freed = some x) (hnames : Names x arg) :
    fetch e freed s (refer s₀ arg) = .error .dangling := by
  cases arg with
  | value v => exact hnames.elim
  | element y index moves =>
    have heq : y = x := hnames
    exact if_pos (heq ▸ hfreed)

theorem fetchAll_eq (hs : ∀ z, Ring (s z))
    (hshape : ∀ z, freed ≠ some z → shape (s z) = shape (s₀ z)) (hs₀ : ∀ z, Ring (s₀ z))
    (hpresent : ∀ arg ∈ args, Legal.Present s₀ arg)
    (hapart : ∀ x ∈ freed, ∀ arg ∈ args, ¬Names x arg) :
    ∃ s', fetchAll e freed s (args.map (refer s₀)) = .ok (s', (specFetchAll e (abs s) args).2) ∧
      abs s' = (specFetchAll e (abs s) args).1 ∧ (∀ z, Ring (s' z)) ∧
        ∀ z, shape (s' z) = shape (s z) := by
  induction args generalizing s with
  | nil => exact ⟨s, rfl, rfl, hs, fun _ => rfl⟩
  | cons arg rest ih =>
    obtain ⟨s₁, hfetch, habs, hring, hsame⟩ := fetch_eq e hs hshape hs₀
      (hpresent arg mem_cons_self) fun x hx => hapart x hx arg mem_cons_self
    obtain ⟨s', hrest, habs', hring', hsame'⟩ := ih hring
      (fun z hz => (hsame z).trans (hshape z hz))
      (fun arg harg => hpresent arg (mem_cons_of_mem _ harg))
      fun x hx arg harg => hapart x hx arg (mem_cons_of_mem _ harg)
    refine ⟨s', ?_, ?_, hring', fun z => (hsame' z).trans (hsame z)⟩
    · rw [map_cons, fetchAll, hfetch]
      change (fetchAll e freed s₁ (rest.map (refer s₀)) >>= fun _ => _) = _
      rw [hrest, habs]
      rfl
    · rw [habs', habs]
      rfl

theorem fetchAll_dangling {x : ι} (hfreed : freed = some x) (hs : ∀ z, Ring (s z))
    (hshape : ∀ z, freed ≠ some z → shape (s z) = shape (s₀ z)) (hs₀ : ∀ z, Ring (s₀ z))
    (hpresent : ∀ arg ∈ args, Legal.Present s₀ arg) (hnames : ∃ arg ∈ args, Names x arg) :
    fetchAll e freed s (args.map (refer s₀)) = .error .dangling := by
  induction args generalizing s with
  | nil =>
    obtain ⟨arg, harg, -⟩ := hnames
    cases harg
  | cons arg rest ih =>
    rw [map_cons, fetchAll]
    by_cases hfirst : Names x arg
    · rw [fetch_dangling e hfreed hfirst]
      rfl
    · have hapart : ∀ z ∈ freed, ¬Names z arg := by
        intro z hz
        rw [hfreed, Option.mem_some_iff] at hz
        exact hz ▸ hfirst
      obtain ⟨s₁, hfetch, -, hring, hsame⟩ := fetch_eq e hs hshape hs₀
        (hpresent arg mem_cons_self) hapart
      obtain ⟨other, hother, hnamed⟩ := hnames
      have hlater : other ∈ rest := by
        obtain rfl | hlater := mem_cons.mp hother
        · exact absurd hnamed hfirst
        · exact hlater
      rw [hfetch]
      change (fetchAll e freed s₁ (rest.map (refer s₀)) >>= fun _ => _) = _
      rw [ih hring (fun z hz => (hsame z).trans (hshape z hz))
        (fun arg harg => hpresent arg (mem_cons_of_mem _ harg)) ⟨other, hlater, hnamed⟩]
      rfl

end Arguments

section Steps

variable {s : World ι α}

def Refusal (s : World ι α) : Call ι α → Prop
  | .pushFront x _ granted | .pushBack x _ granted | .emplaceBack x _ _ granted =>
    (s x).size = (s x).capacity ∧ Refused e granted (s x)
  | _ => False

/-- The call does on the deques what it does on the lists they hold and keeps their indices in
order, unless it is refused a block and ends the program. -/
def Behaves (s : World ι α) (c : Call ι α) : Prop :=
  match exec e s c with
  | .ok (s', r) => abs s' = (specExec e (abs s) c).1 ∧ r = (specExec e (abs s) c).2 ∧ ∀ z, Ring (s' z)
  | .error .fatal => Refusal e s c
  | .error _ => False

/-- No deque that moves to a larger block is given its own elements. -/
def Apart (s : World ι α) : Call ι α → Prop
  | .pushFront x arg granted | .pushBack x arg granted =>
    (s x).size = (s x).capacity → ¬Refused e granted (s x) → ¬Names x arg
  | .emplaceBack x args _ granted =>
    (s x).size = (s x).capacity → ¬Refused e granted (s x) → ∀ arg ∈ args, ¬Names x arg
  | _ => True

instance (granted : Bool) (d : SimpleDeque α) : Decidable (Refused e granted d) :=
  inferInstanceAs (Decidable (_ ∨ _))

instance (s : World ι α) : ∀ c : Call ι α, Decidable (Apart e s c)
  | .pushFront x arg granted | .pushBack x arg granted =>
    inferInstanceAs (Decidable (_ → _))
  | .emplaceBack x args _ granted =>
    inferInstanceAs (Decidable (_ → _))
  | .construct _ | .moveConstruct _ _ | .moveAssign _ _ | .popFront _ | .popBack _ | .clear _
  | .read _ _ | .write _ _ _ | .iterate _ | .empty _ | .size _ => isTrue trivial

variable {c : Call ι α}

theorem behaves_of_ok {t : World ι α} {r : Reply α} (hexec : exec e s c = .ok (t, r))
    (habs : abs t = (specExec e (abs s) c).1) (hreply : r = (specExec e (abs s) c).2)
    (ht : ∀ z, Ring (t z)) : Behaves e s c := by
  rw [Behaves, hexec]
  exact ⟨habs, hreply, ht⟩

theorem not_behaves_of_dangling (hexec : exec e s c = .error .dangling) : ¬Behaves e s c := by
  rw [Behaves, hexec]
  exact False.elim

theorem behaves_of_update {x : ι} {d : SimpleDeque α} {xs : List α} (hs : ∀ z, Ring (s z))
    (hexec : exec e s c = .ok (update s x d, .done))
    (hspec : specExec e (abs s) c = (update (abs s) x xs, .done)) (hd : Ring d)
    (hcontents : contents d = xs) : Behaves e s c := by
  refine behaves_of_ok e hexec ?_ ?_ (ring_update hs hd)
  · rw [abs_update, hcontents, hspec]
  · rw [hspec]

variable {granted : Bool}

theorem room_eq (hs : ∀ z, Ring (s z)) (x : ι)
    (h : (s x).size = (s x).capacity → ¬Refused e granted (s x)) :
    ∃ d, makeRoom e granted (s x) = .ok d ∧ (∀ z, Ring (update s x d z)) ∧
      abs (update s x d) = abs s ∧
      (∀ z, freedBy s x ≠ some z → shape (update s x d z) = shape (s z)) ∧ d.size < d.capacity := by
  obtain ⟨d, hroom, hd, hcontents, hlt, hsame⟩ := (hs x).makeRoom_eq e h
  refine ⟨d, hroom, ring_update hs hd, abs_update_self hcontents, fun z hz => ?_, hlt⟩
  by_cases hzx : z = x
  · subst hzx
    rw [update_self, hsame fun hfull => hz (if_pos hfull)]
  · rw [update_of_ne hzx]

omit [DecidableEq ι] in
theorem mem_freedBy {x y : ι} : y ∈ freedBy s x ↔ (s x).size = (s x).capacity ∧ y = x := by
  rw [freedBy]
  split
  case isTrue h =>
    rw [Option.mem_some_iff, eq_comm]
    exact (and_iff_right h).symm
  case isFalse h => exact iff_of_false (Option.not_mem_none y) fun hy => h hy.1

def pushWith (place : SimpleDeque α → α → Except Fault (SimpleDeque α)) (s : World ι α) (x : ι)
    (arg : Argument ι α) (granted : Bool) : Except Fault (World ι α) := do
  let d ← makeRoom e granted (s x)
  let (s', v) ← fetch e (freedBy s x) (update s x d) (refer s arg)
  let d ← place (s' x) v
  .ok (update s' x d)

variable {place : SimpleDeque α → α → Except Fault (SimpleDeque α)}

theorem place_eq (add : List α → α → List α) (hplace : ∀ d v, Ring d → d.size < d.capacity →
      ∃ d', place d v = .ok d' ∧ Ring d' ∧ contents d' = add (contents d) v) (hs : ∀ z, Ring (s z))
    {x : ι} (hroom : (s x).size < (s x).capacity) (v : α) :
    ∃ d, place (s x) v = .ok d ∧ (∀ z, Ring (update s x d z)) ∧
      abs (update s x d) = update (abs s) x (add (abs s x) v) := by
  obtain ⟨d, hdone, hd, hcontents⟩ := hplace (s x) v (hs x) hroom
  refine ⟨d, hdone, ring_update hs hd, ?_⟩
  rw [abs_update, hcontents]
  rfl

theorem room_of_shape {s s' : World ι α} {x : ι} {d : SimpleDeque α}
    (hroom : d.size < d.capacity)
    (hshape : shape (s' x) = shape (update s x d x)) : (s' x).size < (s' x).capacity := by
  rw [update_self] at hshape
  obtain ⟨hcap, hrest⟩ := Prod.mk.inj hshape
  rw [hcap, (Prod.mk.inj hrest).2]
  exact hroom

theorem pushWith_cases {add : List α → α → List α} (hplace : ∀ d v, Ring d → d.size < d.capacity →
      ∃ d', place d v = .ok d' ∧ Ring d' ∧ contents d' = add (contents d) v) (hs : ∀ z, Ring (s z))
    {x : ι} {arg : Argument ι α} (hpresent : Legal.Present s arg) (granted : Bool) :
    (((s x).size = (s x).capacity ∧ Refused e granted (s x)) ∧
        pushWith e place s x arg granted = .error .fatal) ∨
      (((s x).size = (s x).capacity ∧ ¬Refused e granted (s x) ∧ Names x arg) ∧
        pushWith e place s x arg granted = .error .dangling) ∨
      ((s x).size = (s x).capacity → ¬Refused e granted (s x) → ¬Names x arg) ∧
        ∃ s', pushWith e place s x arg granted = .ok s' ∧ (∀ z, Ring (s' z)) ∧
          abs s' = update (specFetch e (abs s) arg).1 x
            (add ((specFetch e (abs s) arg).1 x) (specFetch e (abs s) arg).2) := by
  by_cases hrefused : (s x).size = (s x).capacity ∧ Refused e granted (s x)
  · refine .inl ⟨hrefused, ?_⟩
    rw [pushWith, makeRoom_refused e hrefused.1 hrefused.2]
    rfl
  · have hgranted : (s x).size = (s x).capacity → ¬Refused e granted (s x) :=
      fun hfull hno => hrefused ⟨hfull, hno⟩
    obtain ⟨d, hmake, hring, habs, hshape, hroom⟩ := room_eq e hs x hgranted
    refine .inr ?_
    by_cases hown : (s x).size = (s x).capacity ∧ Names x arg
    · refine .inl ⟨⟨hown.1, hgranted hown.1, hown.2⟩, ?_⟩
      rw [pushWith, hmake]
      change (fetch e (freedBy s x) _ (refer s arg) >>= fun _ => _) = _
      have hfreed : freedBy s x = some x := if_pos hown.1
      rw [fetch_dangling e hfreed hown.2]
      rfl
    · refine .inr ⟨fun hfull _ hnames => hown ⟨hfull, hnames⟩, ?_⟩
      have hapart : ∀ y ∈ freedBy s x, ¬Names y arg := by
        intro y hy hnames
        obtain ⟨hfull, rfl⟩ := mem_freedBy.mp hy
        exact hown ⟨hfull, hnames⟩
      obtain ⟨s', hfetch, habs', hring', hshape'⟩ := fetch_eq e hring hshape hs hpresent hapart
      obtain ⟨d', hdone, hfinal, hcontents⟩ := place_eq add hplace hring'
        (room_of_shape hroom (hshape' x)) (specFetch e (abs s) arg).2
      rw [habs] at hfetch habs'
      refine ⟨update s' x d', ?_, hfinal, ?_⟩
      · rw [pushWith, hmake]
        change (fetch e (freedBy s x) _ (refer s arg) >>= fun _ => _) = _
        rw [hfetch]
        change (place (s' x) _ >>= fun _ => _) = _
        rw [hdone]
        rfl
      · rw [hcontents, habs']

theorem push_behaves_iff (place : SimpleDeque α → α → Except Fault (SimpleDeque α))
    (add : List α → α → List α) (hplace : ∀ d v, Ring d → d.size < d.capacity →
      ∃ d', place d v = .ok d' ∧ Ring d' ∧ contents d' = add (contents d) v) (hs : ∀ z, Ring (s z))
    {x : ι} {arg : Argument ι α} (hpresent : Legal.Present s arg)
    (hexec : exec e s c = (pushWith e place s x arg granted >>= fun s' => .ok (s', .done)))
    (hspec : specExec e (abs s) c = (update (specFetch e (abs s) arg).1 x
      (add ((specFetch e (abs s) arg).1 x) (specFetch e (abs s) arg).2), .done))
    (hrefusal : Refusal e s c ↔ (s x).size = (s x).capacity ∧ Refused e granted (s x)) :
    Behaves e s c ↔ ((s x).size = (s x).capacity → ¬Refused e granted (s x) → ¬Names x arg) := by
  obtain ⟨hno, hrun⟩ | ⟨hown, hrun⟩ | ⟨hapart, s', hrun, hring, habs⟩ :=
    pushWith_cases e hplace hs hpresent granted
  · refine iff_of_true ?_ fun _ hgranted => absurd hno.2 hgranted
    rw [Behaves, hexec, hrun]
    exact hrefusal.mpr hno
  · refine iff_of_false (not_behaves_of_dangling e ?_) fun h => h hown.1 hown.2.1 hown.2.2
    rw [hexec, hrun]
    rfl
  · refine iff_of_true (behaves_of_ok e (r := .done) ?_ ?_ ?_ hring) hapart
    · rw [hexec, hrun]
      rfl
    · rw [hspec, habs]
    · rw [hspec]

theorem emplaceBack_dangling (hs : ∀ z, Ring (s z)) {x : ι} {args : List (Argument ι α)}
    (hpresent : ∀ arg ∈ args, Legal.Present s arg) (build : List α → α)
    (hfull : (s x).size = (s x).capacity) (hgranted : ¬Refused e granted (s x))
    (hnames : ∃ arg ∈ args, Names x arg) :
    exec e s (.emplaceBack x args build granted) = .error .dangling := by
  obtain ⟨d, hmake, hring, -, hshape, -⟩ := room_eq e hs x fun _ => hgranted
  rw [exec, emplaceBack, hmake]
  change ((fetchAll e (freedBy s x) _ (args.map (refer s)) >>= fun _ => _) >>= fun _ => _) = _
  have hfreed : freedBy s x = some x := if_pos hfull
  rw [fetchAll_dangling e hfreed hring hshape hs hpresent hnames]
  rfl

theorem emplaceBack_behaves_iff (hs : ∀ z, Ring (s z)) {x : ι} {args : List (Argument ι α)}
    (hpresent : ∀ arg ∈ args, Legal.Present s arg) (build : List α → α) (granted : Bool) :
    Behaves e s (.emplaceBack x args build granted) ↔
      ((s x).size = (s x).capacity → ¬Refused e granted (s x) → ∀ arg ∈ args, ¬Names x arg) := by
  by_cases hrefused : (s x).size = (s x).capacity ∧ Refused e granted (s x)
  · refine iff_of_true ?_ fun _ hgranted => absurd hrefused.2 hgranted
    have hrun : exec e s (.emplaceBack x args build granted) = .error .fatal := by
      rw [exec, emplaceBack, makeRoom_refused e hrefused.1 hrefused.2]
      rfl
    rw [Behaves, hrun]
    exact hrefused
  · have hgranted : (s x).size = (s x).capacity → ¬Refused e granted (s x) :=
      fun hfull hno => hrefused ⟨hfull, hno⟩
    obtain ⟨d, hmake, hring, habs, hshape, hroom⟩ := room_eq e hs x hgranted
    by_cases hown : (s x).size = (s x).capacity ∧ ∃ arg ∈ args, Names x arg
    · obtain ⟨hfull, arg, harg, hnames⟩ := hown
      exact iff_of_false (not_behaves_of_dangling e (emplaceBack_dangling e hs hpresent build hfull
        (hgranted hfull) ⟨arg, harg, hnames⟩)) fun h => h hfull (hgranted hfull) arg harg hnames
    · refine iff_of_true ?_ fun hfull _ arg harg hnames => hown ⟨hfull, arg, harg, hnames⟩
      have hapart : ∀ y ∈ freedBy s x, ∀ arg ∈ args, ¬Names y arg := by
        intro y hy arg harg hnames
        obtain ⟨hfull, rfl⟩ := mem_freedBy.mp hy
        exact hown ⟨hfull, arg, harg, hnames⟩
      obtain ⟨s', hfetch, habs', hring', hshape'⟩ :=
        fetchAll_eq e hring hshape hs hpresent hapart
      obtain ⟨d', hdone, hfinal, hcontents⟩ := place_eq (fun xs v => xs ++ [v])
        (fun d v hd hroom => hd.placeBack_eq hroom v) hring' (room_of_shape hroom (hshape' x))
        (build (specFetchAll e (abs s) args).2)
      rw [habs] at hfetch habs'
      refine behaves_of_ok e
        ?_ ?_ rfl hfinal
      · rw [exec, emplaceBack, hmake]
        change ((fetchAll e (freedBy s x) _ (args.map (refer s)) >>= fun _ => _) >>= fun _ => _) = _
        rw [hfetch]
        change ((placeBack (s' x) _ >>= fun _ => _) >>= fun _ => _) = _
        rw [hdone]
        rfl
      · rw [hcontents, habs']
        rfl

omit [DecidableEq ι] in
theorem place_behaves {s : World ι α} {x : ι} {place : Place} (hs : ∀ z, Ring (s z))
    (hlegal : Legal s (.read x place)) : specIndex (abs s x) place < (s x).size ∧
      slotOf (s x) place = ((s x).frontIndex + specIndex (abs s x) place) % (s x).slots.length := by
  cases place with
  | index i => exact ⟨hlegal, (hs x).elementSlot_eq hlegal⟩
  | front => exact ⟨hlegal, (hs x).frontSlot_eq hlegal⟩
  | back =>
    have hindex : specIndex (abs s x) .back = (s x).size - 1 := by
      rw [specIndex, abs, (hs x).length_contents]
    rw [hindex]
    exact ⟨Nat.sub_lt hlegal Nat.one_pos, (hs x).backSlot_eq hlegal⟩

theorem moved_behaves (hs : ∀ z, Ring (s z)) (x y : ι) :
    abs (moveConstruct s x y) = update (update (abs s) x (abs s y)) y [] ∧
      ∀ z, Ring (moveConstruct s x y z) := by
  refine ⟨?_, ring_update (ring_update hs (hs y)) ring_new⟩
  rw [moveConstruct, abs_update, abs_update]
  rfl

theorem behaves_iff (hs : ∀ z, Ring (s z)) (c : Call ι α) (hlegal : Legal s c) :
    Behaves e s c ↔ Apart e s c := by
  cases c with
  | construct x =>
    exact iff_of_true (behaves_of_update e hs rfl rfl ring_new contents_new) trivial
  | moveConstruct x y =>
    obtain ⟨habs, hring⟩ := moved_behaves hs x y
    exact iff_of_true (behaves_of_ok e rfl habs rfl hring) trivial
  | moveAssign x y =>
    refine iff_of_true (behaves_of_ok e rfl ?_ rfl ?_) trivial
    · change abs (moveAssign s x y) = if x = y then abs s else _
      rw [moveAssign]
      split
      case isTrue => rfl
      case isFalse => exact (moved_behaves hs x y).1
    · rw [moveAssign]
      split
      case isTrue => exact hs
      case isFalse => exact (moved_behaves hs x y).2
  | pushFront x arg granted =>
    exact push_behaves_iff e placeFront (fun xs v => v :: xs)
      (fun d v hd hroom => hd.placeFront_eq hroom v) hs hlegal rfl rfl Iff.rfl
  | pushBack x arg granted =>
    exact push_behaves_iff e placeBack (fun xs v => xs ++ [v])
      (fun d v hd hroom => hd.placeBack_eq hroom v) hs hlegal rfl rfl Iff.rfl
  | emplaceBack x args build granted => exact emplaceBack_behaves_iff e hs hlegal build granted
  | popFront x =>
    obtain ⟨hring, hcontents⟩ := (hs x).popFront hlegal
    exact iff_of_true (behaves_of_update e hs rfl rfl hring hcontents) trivial
  | popBack x =>
    obtain ⟨hring, hcontents⟩ := (hs x).popBack hlegal
    exact iff_of_true (behaves_of_update e hs rfl rfl hring hcontents) trivial
  | clear x =>
    obtain ⟨hring, hcontents⟩ := (hs x).clear
    exact iff_of_true (behaves_of_update e hs rfl rfl hring hcontents) trivial
  | read x place =>
    obtain ⟨hindex, hslot⟩ := place_behaves hs hlegal
    refine iff_of_true (behaves_of_ok e ?_ rfl rfl hs) trivial
    rw [exec, hslot, (hs x).access_eq hindex e.fresh]
    rfl
  | write x place v =>
    have hread : Legal s (.read x place) := by
      cases place <;> exact hlegal
    obtain ⟨hindex, hslot⟩ := place_behaves hs hread
    obtain ⟨d, hstore, hd, hcontents, -⟩ := (hs x).store_eq hindex v
    refine iff_of_true (behaves_of_update e hs ?_ rfl hd hcontents) trivial
    rw [exec, hslot, hstore]
    rfl
  | iterate x =>
    refine iff_of_true (behaves_of_ok e ?_ rfl rfl hs)
      trivial
    rw [exec, (hs x).iterate]
    rfl
  | empty x =>
    refine iff_of_true (behaves_of_ok e rfl rfl (congrArg Reply.bit ?_) hs) trivial
    rw [Bool.eq_iff_iff, decide_eq_true_iff, isEmpty_iff_length_eq_zero, abs,
      (hs x).length_contents]
  | size x =>
    exact iff_of_true (behaves_of_ok e rfl rfl
      (congrArg Reply.number (hs x).length_contents.symm) hs) trivial

theorem pushWith_apart (add : List α → α → List α) (hplace : ∀ d v, Ring d → d.size < d.capacity →
      ∃ d', place d v = .ok d' ∧ Ring d' ∧ contents d' = add (contents d) v) (hs : ∀ z, Ring (s z))
    {x : ι} {arg : Argument ι α} (hpresent : Legal.Present s arg) {s' : World ι α}
    (h : pushWith e place s x arg granted = .ok s') :
    (s x).size = (s x).capacity → ¬Refused e granted (s x) → ¬Names x arg := by
  obtain ⟨-, hrun⟩ | ⟨-, hrun⟩ | ⟨hapart, -⟩ := pushWith_cases e hplace hs hpresent granted
  · cases hrun.symm.trans h
  · cases hrun.symm.trans h
  · exact hapart

/-- A call that returns has read no slot that is gone. -/
theorem behaves_of_returns (hs : ∀ z, Ring (s z)) (hlegal : Legal s c) {s' : World ι α}
    {r : Reply α} (h : exec e s c = .ok (s', r)) : Behaves e s c := by
  refine (behaves_iff e hs c hlegal).mpr ?_
  cases c with
  | pushFront x arg granted =>
    obtain ⟨s₁, hpush, -⟩ := bind_eq_ok.mp h
    exact pushWith_apart e (fun xs v => v :: xs)
      (fun d v hd hroom => hd.placeFront_eq hroom v) hs hlegal hpush
  | pushBack x arg granted =>
    obtain ⟨s₁, hpush, -⟩ := bind_eq_ok.mp h
    exact pushWith_apart e (fun xs v => xs ++ [v])
      (fun d v hd hroom => hd.placeBack_eq hroom v) hs hlegal hpush
  | emplaceBack x args build granted =>
    intro hfull hgranted arg harg hnames
    cases (emplaceBack_dangling e hs hlegal build hfull hgranted ⟨arg, harg, hnames⟩).symm.trans h
  | construct | moveConstruct | moveAssign | popFront | popBack | clear | read | write | iterate
  | empty | size => trivial

end Steps

/-- In every run of calls with their preconditions, started with empty deques, the deques behave
as lists exactly when no full deque is pushed one of its own elements. -/
theorem behaves_as_lists (calls : List (Call ι α))
    (hlegal : Library.Calls.Guarded (exec e) Legal (fun _ => new) calls) :
    Library.Calls.Guarded (exec e) (Behaves e) (fun _ => new) calls ↔
      Library.Calls.Guarded (exec e) (Apart e) (fun _ => new) calls := by
  refine Library.Calls.guarded_congr (fun s : World ι α => ∀ z, Ring (s z))
    (fun s c hs hc => behaves_iff e hs c hc) ?_ (fun _ => ring_new) hlegal
  intro s c s' r _ _ hbehaves hx
  rw [Behaves, hx] at hbehaves
  exact hbehaves.2.2

section Aliases

variable {s : World ι α} {x : ι}

/-- A push of one element. -/
inductive Push (α : Type) where
  | pushBack
  | pushFront
  | emplaceBack (build : List α → α)

def Push.call (x : ι) (arg : Argument ι α) (granted : Bool) : Push α → Call ι α
  | .pushBack => .pushBack x arg granted
  | .pushFront => .pushFront x arg granted
  | .emplaceBack build => .emplaceBack x [arg] build granted

/-- The push of an element of the deque does what the push of a copy `v` of it does, and reads no
slot that is gone. -/
structure LikeCopy (s : World ι α) (x : ι) (index : ℕ) (v : α) (granted : Bool) (push : Push α) :
    Prop where
  same : exec e s (push.call x (.element x index false) granted) =
    exec e s (push.call x (.value v) granted)
  safe : ∀ fault, exec e s (push.call x (.element x index false) granted) = .error fault →
    fault = .fatal

theorem fatal_of_behaves (h : Behaves e s c) {fault : Fault} (hexec : exec e s c = .error fault) :
    fault = .fatal := by
  rw [Behaves, hexec] at h
  cases fault with
  | fatal => rfl
  | invalid => exact h.elim
  | dangling => exact h.elim

theorem fetch_own (hs : ∀ z, Ring (s z)) {index : ℕ} (hindex : index < (contents (s x)).length) :
    fetch e none s (refer s (.element x index false)) = .ok (s, (contents (s x))[index]) := by
  have hlt : index < (s x).size := (hs x).length_contents ▸ hindex
  have haccess : access (s x) (elementSlot (s x) index) = .ok (contents (s x))[index] := by
    rw [(hs x).elementSlot_eq hlt, (hs x).access_eq hlt e.fresh, getD_eq_getElem?_getD,
      getElem?_eq_getElem hindex]
    rfl
  rw [refer, fetch, haccess]
  rfl

theorem Push.exec_congr {arg arg' : Argument ι α} (push : Push α)
    (h : ∀ d, makeRoom e granted (s x) = .ok d →
      fetch e (freedBy s x) (update s x d) (refer s arg) =
        fetch e (freedBy s x) (update s x d) (refer s arg')) :
    exec e s (push.call x arg granted) = exec e s (push.call x arg' granted) := by
  cases hroom : makeRoom e granted (s x) with
  | error fault =>
    cases push with
    | pushBack => simp only [Push.call, exec, SimpleDeque.pushBack, hroom, bind, Except.bind]
    | pushFront => simp only [Push.call, exec, SimpleDeque.pushFront, hroom, bind, Except.bind]
    | emplaceBack build =>
      simp only [Push.call, exec, SimpleDeque.emplaceBack, hroom, bind, Except.bind]
  | ok d =>
    have hfetch := h d hroom
    cases push with
    | pushBack =>
      simp only [Push.call, exec, SimpleDeque.pushBack, hroom, bind, Except.bind, hfetch]
    | pushFront =>
      simp only [Push.call, exec, SimpleDeque.pushFront, hroom, bind, Except.bind, hfetch]
    | emplaceBack build =>
      simp only [Push.call, exec, SimpleDeque.emplaceBack, hroom, bind, Except.bind, map_cons,
        fetchAll, hfetch]

section

omit [DecidableEq ι]

theorem Push.apart_iff {arg : Argument ι α} (push : Push α) :
    Apart e s (push.call x arg granted) ↔
      ((s x).size = (s x).capacity → ¬Refused e granted (s x) → ¬Names x arg) := by
  cases push with
  | pushBack => exact Iff.rfl
  | pushFront => exact Iff.rfl
  | emplaceBack build =>
    exact imp_congr_right fun _ => imp_congr_right fun _ => forall_mem_singleton

theorem Push.legal {arg : Argument ι α} (push : Push α) (h : Legal.Present s arg) :
    Legal s (push.call x arg granted) := by
  cases push with
  | pushBack => exact h
  | pushFront => exact h
  | emplaceBack build => exact forall_mem_singleton.mpr h

end

theorem Push.specExec_own {index : ℕ} (hindex : index < (contents (s x)).length) (push : Push α) :
    specExec e (abs s) (push.call x (.element x index false) granted) =
      specExec e (abs s) (push.call x (.value (contents (s x))[index]) granted) := by
  have hget : (abs s x).getD index e.fresh = (contents (s x))[index] := by
    rw [abs, getD_eq_getElem?_getD, getElem?_eq_getElem hindex]
    rfl
  cases push with
  | pushBack => simp only [Push.call, specExec, specFetch, hget, if_neg Bool.false_ne_true]
  | pushFront => simp only [Push.call, specExec, specFetch, hget, if_neg Bool.false_ne_true]
  | emplaceBack build =>
    simp only [Push.call, specExec, specFetchAll, specFetch, hget, if_neg Bool.false_ne_true]

/-- For every element of a deque in order, whatever the rotation of its ring. -/
theorem push_likeCopy_iff (hs : ∀ z, Ring (s z)) {index : ℕ}
    (hindex : index < (contents (s x)).length) (granted : Bool) (push : Push α) :
    LikeCopy e s x index (contents (s x))[index] granted push ↔
      (s x).size < (s x).capacity ∨ Refused e granted (s x) := by
  have hpresent : index < (s x).size := (hs x).length_contents ▸ hindex
  have hlegal : Legal s (push.call x (.element x index false) granted) := push.legal hpresent
  have hlegal' : Legal s (push.call x (.value (contents (s x))[index]) granted) :=
    push.legal trivial
  constructor
  · intro h
    have hvalue : Behaves e s (push.call x (.value (contents (s x))[index]) granted) :=
      (behaves_iff e hs _ hlegal').mpr ((push.apart_iff e).mpr fun _ _ => not_false)
    have hown : Behaves e s (push.call x (.element x index false) granted) := by
      rw [Behaves, ← h.same, ← push.specExec_own e hindex] at hvalue
      cases hexec : exec e s (push.call x (.element x index false) granted) with
      | ok r =>
        rw [hexec] at hvalue
        rw [Behaves, hexec]
        exact hvalue
      | error fault =>
        rw [hexec] at hvalue
        rw [Behaves, hexec]
        cases push <;> exact hvalue
    have hapart := (push.apart_iff e).mp ((behaves_iff e hs _ hlegal).mp hown)
    by_contra hno
    obtain ⟨hfull, hgranted⟩ := not_or.mp hno
    exact hapart (Nat.le_antisymm (hs x).size_le (Nat.le_of_not_lt hfull)) hgranted rfl
  · intro h
    have hapart : Apart e s (push.call x (.element x index false) granted) := by
      refine (push.apart_iff e).mpr fun hfull hgranted => ?_
      exact absurd h (not_or.mpr ⟨Nat.not_lt_of_le (Nat.le_of_eq hfull.symm), hgranted⟩)
    refine ⟨push.exec_congr e fun d hroom => ?_,
      fun _ => fatal_of_behaves e ((behaves_iff e hs _ hlegal).mpr hapart)⟩
    by_cases hfull : (s x).size = (s x).capacity
    case pos =>
      have hrefused := h.resolve_left (Nat.not_lt_of_le (Nat.le_of_eq hfull.symm))
      rw [makeRoom_refused e hfull hrefused] at hroom
      cases hroom
    case neg =>
      have hstay : makeRoom e granted (s x) = .ok (s x) := if_neg hfull
      have hfreed : freedBy s x = none := if_neg hfull
      rw [hstay] at hroom
      cases hroom
      rw [update_eq_self, hfreed, fetch_own e hs hindex]
      rfl

end Aliases

section Examples

theorem four_pos : 0 < 4 := by decide

/-- `i32` elements. -/
def word : Element ℕ := ⟨4, four_pos, 0, id⟩

/-- Growth of a deque whose elements are wrapped around its end. -/
theorem behaves_as_lists_wrapped :
    Library.Calls.Guarded (exec word) (Behaves word) (fun _ : Bool => new)
      [.pushBack true (.value 1) true, .pushFront true (.value 2) true,
        .pushFront true (.element true 1 false) true, .popBack true,
        .pushBack true (.value 4) true, .pushBack true (.value 5) true,
        .emplaceBack true [.value 6] List.sum true, .moveAssign false true,
        .read false .back, .iterate false] :=
  (behaves_as_lists word _ (by decide +kernel)).mpr (by decide +kernel)

/-- The reference to the first element dangles when the full deque has grown. -/
theorem push_own_element : Library.Calls.Guarded (exec word) Legal (fun _ : Unit => new)
        [.pushBack () (.value 1) true, .pushBack () (.value 2) true, .pushBack () (.value 3) true,
          .pushBack () (.value 4) true, .pushBack () (.element () 0 false) true] ∧
      ¬Library.Calls.Guarded (exec word) (Behaves word) (fun _ : Unit => new)
        [.pushBack () (.value 1) true, .pushBack () (.value 2) true, .pushBack () (.value 3) true,
          .pushBack () (.value 4) true, .pushBack () (.element () 0 false) true] := by
  refine ⟨by decide +kernel, ?_⟩
  rintro ⟨-, h⟩
  obtain ⟨-, h⟩ := h _ _ rfl
  obtain ⟨-, h⟩ := h _ _ rfl
  obtain ⟨-, h⟩ := h _ _ rfl
  obtain ⟨hown, -⟩ := h _ _ rfl
  exact hown

def fullRing : SimpleDeque ℕ := ⟨some [3, 4, 1, 2], 4, 2, 2, 4⟩

theorem ring_full : Ring fullRing where
  length := rfl
  storage := .inr ⟨⟨2, by decide, rfl⟩, by decide⟩
  size_le := by decide
  back_eq := rfl

theorem push_likeCopy_iff_full : LikeCopy word (fun _ : Unit => fullRing) () 0 1 true .pushFront ↔
      fullRing.size < fullRing.capacity ∨ Refused word true fullRing :=
  push_likeCopy_iff word (fun _ => ring_full) (by decide) true .pushFront

theorem push_not_likeCopy_full : ¬ ∀ s : World Unit ℕ, (∀ z, Ring (s z)) → ∀ x index,
    ∀ hindex : index < (contents (s x)).length, ∀ granted push,
      LikeCopy word s x index (contents (s x))[index] granted push := by
  intro h
  have hlike := h (fun _ => fullRing) (fun _ => ring_full) () 0 (by decide) true .pushBack
  have hexec : exec word (fun _ : Unit => fullRing) (.pushBack () (.element () 0 false) true) =
      .error .dangling := rfl
  cases hlike.safe _ hexec

end Examples

end Equilibrium.SimpleDeque
