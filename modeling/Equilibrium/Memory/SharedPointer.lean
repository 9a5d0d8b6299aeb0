import Mathlib.Data.Fintype.Basic
import Equilibrium.Library.Calls
import Mathlib.Algebra.BigOperators.Group.Finset.Piecewise

/-! The shared pointers of `base/memory/shared_pointer.h`, used by one thread. Handles have names,
and a control block has one in all that it ever is. The destructor of an object touches no handle,
and fewer handles than a `mem_size` counts exist. -/

namespace Equilibrium.SharedPointer

/-- `pointer_` and `control_`. -/
structure Handle (A C : Type) where
  pointer : Option A
  control : Option C
  deriving DecidableEq

/-- The handles that are constructed, the counts of the control blocks that are allocated, the
blocks that `MakeShared` ever made, and how often each was destroyed. -/
structure State (H A C : Type) where
  handles : H → Option (Handle A C)
  refs : C → Option ℕ
  made : C → Bool
  destroyed : C → ℕ

/-- `handle` is a name without a handle, or a control block is used that was destroyed. -/
inductive Stop
  | noHandle
  | fault
  deriving DecidableEq

/-- The calls, with the conversion of the pointer where the types of two handles differ. -/
inductive Call (H A C : Type)
  | construct (h : H)
  | makeShared (h : H) (block : A) (control : C)
  | copy (h other : H)
  | move (h other : H)
  | convertCopy (h other : H) (convert : A → A)
  | convertMove (h other : H) (convert : A → A)
  | destruct (h : H)
  | assignCopy (h other : H)
  | assignMove (h other : H)
  | assignConvertCopy (h other : H) (convert : A → A)
  | assignConvertMove (h other : H) (convert : A → A)
  | reset (h : H)
  | swap (h other : H)

variable {H A C : Type}

def Handle.null : Handle A C := ⟨none, none⟩

def Handle.convert (p : Handle A C) (f : A → A) : Handle A C := ⟨p.pointer.map f, p.control⟩

def start : State H A C := ⟨fun _ => none, fun _ => none, fun _ => false, fun _ => 0⟩

variable [DecidableEq H] [DecidableEq C]

namespace State

def put (s : State H A C) (h : H) (p : Option (Handle A C)) : State H A C :=
  { s with handles := Function.update s.handles h p }

def setRefs (s : State H A C) (c : C) (n : Option ℕ) : State H A C :=
  { s with refs := Function.update s.refs c n }

/-- `Destroy`, which deletes the control block with the object in it. -/
def destroy (s : State H A C) (c : C) : State H A C :=
  { s.setRefs c none with destroyed := Function.update s.destroyed c (s.destroyed c + 1) }

def read (s : State H A C) (h : H) : Except Stop (Handle A C) :=
  match s.handles h with
  | none => .error .noHandle
  | some p => .ok p

end State

def retain (control : Option C) (s : State H A C) : Except Stop (State H A C) :=
  match control with
  | none => .ok s
  | some c =>
    match s.refs c with
    | none => .error .fault
    | some n => .ok (s.setRefs c (some (n + 1)))

def release (control : Option C) (s : State H A C) : Except Stop (State H A C) :=
  match control with
  | none => .ok s
  | some c =>
    match s.refs c with
    | none => .error .fault
    | some n => .ok (if n = 1 then s.destroy c else s.setRefs c (some (n - 1)))

/-- `MakeShared`: a block with a count of one, held by the handle that is returned. -/
def makeShared (h : H) (block : A) (control : C) (s : State H A C) : State H A C :=
  { s.setRefs control (some 1) with made := Function.update s.made control true }.put h
    (some ⟨some block, some control⟩)

/-- A copy constructor, with the conversion of its pointer. -/
def copy (h other : H) (f : A → A) (s : State H A C) : Except Stop (State H A C) := do
  let p ← s.read other
  let s ← retain p.control s
  return s.put h (some (p.convert f))

def move (h other : H) (f : A → A) (s : State H A C) : Except Stop (State H A C) := do
  let p ← s.read other
  return (s.put other (some .null)).put h (some (p.convert f))

def destruct (h : H) (s : State H A C) : Except Stop (State H A C) := do
  let p ← s.read h
  let s ← release p.control s
  return s.put h none

def reset (h : H) (s : State H A C) : Except Stop (State H A C) := do
  let p ← s.read h
  let s ← release p.control s
  return s.put h (some .null)

def swap (h other : H) (s : State H A C) : Except Stop (State H A C) := do
  let p ← s.read h
  let q ← s.read other
  return (s.put h (some q)).put other (some p)

/-- A temporary handle that is swapped with `h`, and destroyed. -/
def swapTemporary (temporary : Handle A C) (h : H) (s : State H A C) :
    Except Stop (State H A C) := do
  let p ← s.read h
  release p.control (s.put h (some temporary))

/-- `SharedPointer(other).Swap(*this)`. -/
def assignCopy (h other : H) (f : A → A) (s : State H A C) : Except Stop (State H A C) := do
  let p ← s.read other
  let s ← retain p.control s
  swapTemporary (p.convert f) h s

/-- `SharedPointer(base::move(other)).Swap(*this)`. -/
def assignMove (h other : H) (f : A → A) (s : State H A C) : Except Stop (State H A C) := do
  let p ← s.read other
  swapTemporary (p.convert f) h (s.put other (some .null))

/-- A conversion in an assignment makes a temporary, which is then moved from. -/
def exec (s : State H A C) : Call H A C → Except Stop (State H A C × Unit)
  | .construct h => .ok (s.put h (some .null), ())
  | .makeShared h block control => .ok (makeShared h block control s, ())
  | .copy h other => (copy h other id s).map (·, ())
  | .move h other => (move h other id s).map (·, ())
  | .convertCopy h other f => (copy h other f s).map (·, ())
  | .convertMove h other f => (move h other f s).map (·, ())
  | .destruct h => (destruct h s).map (·, ())
  | .assignCopy h other => (assignCopy h other id s).map (·, ())
  | .assignMove h other => (assignMove h other id s).map (·, ())
  | .assignConvertCopy h other f => (assignCopy h other f s).map (·, ())
  | .assignConvertMove h other f => (assignMove h other f s).map (·, ())
  | .reset h => (reset h s).map (·, ())
  | .swap h other => (swap h other s).map (·, ())

/-- A call is made on handles that are constructed, and a constructor on none that is; an
allocation gives a block that no earlier one gave. -/
def Legal (s : State H A C) : Call H A C → Prop
  | .construct h => s.handles h = none
  | .makeShared h _ control => s.handles h = none ∧ s.made control = false
  | .copy h other | .move h other | .convertCopy h other _ | .convertMove h other _ =>
    s.handles h = none ∧ s.handles other ≠ none
  | .destruct h | .reset h => s.handles h ≠ none
  | .assignCopy h other | .assignMove h other | .assignConvertCopy h other _
  | .assignConvertMove h other _ | .swap h other => s.handles h ≠ none ∧ s.handles other ≠ none

instance (s : State H A C) (a : Call H A C) : Decidable (Legal s a) :=
  match a with
  | .construct _ => inferInstanceAs (Decidable (_ = _))
  | .makeShared _ _ _ => inferInstanceAs (Decidable (_ ∧ _))
  | .copy _ _ | .move _ _ | .convertCopy _ _ _ | .convertMove _ _ _ =>
    inferInstanceAs (Decidable (_ ∧ _))
  | .destruct _ | .reset _ => inferInstanceAs (Decidable (¬_ = none))
  | .assignCopy _ _ | .assignMove _ _ | .assignConvertCopy _ _ _ | .assignConvertMove _ _ _
  | .swap _ _ => inferInstanceAs (Decidable (¬_ = none ∧ ¬_ = none))

def useCount (s : State H A C) (p : Handle A C) : Except Stop ℕ :=
  match p.control with
  | none => .ok 0
  | some c =>
    match s.refs c with
    | none => .error .fault
    | some n => .ok n

/-! The counts of shared pointers as a ledger: a control block counts the handles that hold it and
what a call in progress holds besides. Each part of a call moves one entry of the ledger. -/

open Finset Option
open Function (update update_self update_of_ne)

variable {H A C : Type} [DecidableEq C]

def holders [Fintype H] (s : State H A C) (c : C) : ℕ :=
  (Finset.univ.filter fun h => (s.handles h).bind Handle.control = some c).card

def weight (control : Option C) (c : C) : ℕ := if control = some c then 1 else 0

/-- The counts are those of the handles and of `extra` holders, and a block that was made is
destroyed once it has no count any more. -/
structure Balanced [Fintype H] (s : State H A C) (extra : C → ℕ) : Prop where
  counted : ∀ c n, s.refs c = some n → n = holders s c + extra c ∧ 0 < n
  unheld : ∀ c, s.refs c = none → holders s c + extra c = 0
  made : ∀ c, s.refs c ≠ none → s.made c = true
  destroyed : ∀ c, s.destroyed c = if s.made c = true ∧ s.refs c = none then 1 else 0

/-- Every handle has an object exactly if it has a control block. -/
def Paired (s : State H A C) : Prop :=
  ∀ h p, s.handles h = some p → (p.pointer = none ↔ p.control = none)

theorem weight_self (c : C) : weight (some c) c = 1 := if_pos rfl

variable {c : C}

theorem weight_of_ne {c' : C} (hne : c' ≠ c) : weight (some c) c' = 0 :=
  if_neg fun heq => hne (Option.some.inj heq).symm

theorem release_put [DecidableEq H] (control : Option C) (s : State H A C) (h : H) (p : Option (Handle A C)) :
    release control (s.put h p) = (release control s).map fun s => s.put h p := by
  cases control with
  | none => rfl
  | some c =>
    have hrefs : (s.put h p).refs = s.refs := rfl
    simp only [SharedPointer.release, hrefs]
    cases s.refs c with
    | none => rfl
    | some n =>
      dsimp only
      split <;> rfl

omit [DecidableEq C] in
theorem read_eq {s : State H A C} {h : H} {p : Handle A C} (hp : s.handles h = some p) : s.read h = .ok p := by
  rw [State.read, hp]

section Ledger

variable [Fintype H] {s : State H A C} {extra : C → ℕ} {h : H}

theorem holders_put [DecidableEq H] (s : State H A C) (h : H) (p : Option (Handle A C)) (c : C) :
    holders (s.put h p) c + weight ((s.handles h).bind Handle.control) c =
      holders s c + weight (p.bind Handle.control) c := by
  have hsum : ∀ s : State H A C, holders s c = weight ((s.handles h).bind Handle.control) c +
      ∑ h ∈ univ.erase h, weight ((s.handles h).bind Handle.control) c := by
    intro s
    rw [add_sum_erase _ (fun h => weight ((s.handles h).bind Handle.control) c)
      (mem_univ h)]
    exact card_filter _ _
  have hrest : ∀ h' ∈ univ.erase h,
      weight (((s.put h p).handles h').bind Handle.control) c =
        weight ((s.handles h').bind Handle.control) c := by
    intro h' hne
    have hsame : (s.put h p).handles h' = s.handles h' :=
      update_of_ne (ne_of_mem_erase hne) _ _
    rw [hsame]
  have hself : (s.put h p).handles h = p := update_self _ _ _
  rw [hsum s, hsum (s.put h p), sum_congr rfl hrest, hself]
  omega

theorem holders_pos (hc : (s.handles h).bind Handle.control = some c) : 0 < holders s c :=
  card_pos.mpr ⟨h, mem_filter.mpr ⟨mem_univ h, hc⟩⟩

theorem Balanced.put [DecidableEq H] {p : Option (Handle A C)}
    (hs : Balanced s fun c => extra c + weight (p.bind Handle.control) c) (h : H) :
    Balanced (s.put h p) fun c => extra c + weight ((s.handles h).bind Handle.control) c := by
  refine ⟨fun c n hn => ?_, fun c hnone => ?_, hs.made, hs.destroyed⟩
  · obtain ⟨hcount, hpos⟩ := hs.counted c n hn
    have hput := holders_put s h p c
    exact ⟨by omega, hpos⟩
  · have hzero := hs.unheld c hnone
    have hput := holders_put s h p c
    omega

/-- What `Balanced` says of a block. -/
structure BlockOk (refs : Option ℕ) (there : Bool) (times held : ℕ) : Prop where
  counted : ∀ n, refs = some n → n = held ∧ 0 < n
  unheld : refs = none → held = 0
  made : refs ≠ none → there = true
  destroyed : times = if there = true ∧ refs = none then 1 else 0

theorem balanced_iff : Balanced s extra ↔
    ∀ c, BlockOk (s.refs c) (s.made c) (s.destroyed c) (holders s c + extra c) :=
  ⟨fun h c => ⟨h.counted c, h.unheld c, h.made c, h.destroyed c⟩, fun h =>
    ⟨fun c => (h c).counted, fun c => (h c).unheld, fun c => (h c).made, fun c => (h c).destroyed⟩⟩

section

variable (hs : Balanced s extra)
include hs

variable {extra' : C → ℕ}

theorem Balanced.of_block {s' : State H A C} (hhandles : s'.handles = s.handles)
    (hsame : ∀ c' ≠ c, s'.refs c' = s.refs c' ∧ s'.made c' = s.made c' ∧
      s'.destroyed c' = s.destroyed c' ∧ extra' c' = extra c')
    (hc : BlockOk (s'.refs c) (s'.made c) (s'.destroyed c) (holders s c + extra' c)) :
    Balanced s' extra' := by
  have hholders (c' : C) : holders s' c' = holders s c' := by rw [holders, hhandles, holders]
  refine balanced_iff.mpr fun c' => ?_
  rw [hholders]
  by_cases heq : c' = c
  case pos => exact heq ▸ hc
  case neg =>
    obtain ⟨hrefs, hmade, hdestroyed, hextra⟩ := hsame c' heq
    rw [hrefs, hmade, hdestroyed, hextra]
    exact balanced_iff.mp hs c'

theorem Balanced.setRefs {n : ℕ} (hc : s.refs c ≠ none) (hn : n = holders s c + extra' c)
    (hpos : 0 < n) (hother : ∀ c' ≠ c, extra' c' = extra c') :
    Balanced (s.setRefs c (some n)) extra' := by
  have hold := hs.destroyed c
  rw [if_neg fun h => hc h.2] at hold
  refine hs.of_block rfl
    (fun c' hne => ⟨update_of_ne hne _ _, rfl, rfl, hother c' hne⟩) ?_
  rw [show (s.setRefs c (some n)).refs c = some n from update_self _ _ _]
  refine ⟨fun m hm => ?_, nofun, fun _ => hs.made c hc, hold.trans (if_neg fun h => ?_).symm⟩
  · cases hm
    exact ⟨hn, hpos⟩
  · cases h.2

theorem Balanced.destroy (hc : s.refs c ≠ none) (hzero : holders s c + extra' c = 0)
    (hother : ∀ c' ≠ c, extra' c' = extra c') : Balanced (s.destroy c) extra' := by
  have hold := hs.destroyed c
  rw [if_neg fun h => hc h.2] at hold
  refine hs.of_block rfl
    (fun c' hne => ⟨update_of_ne hne _ _, rfl, update_of_ne hne _ _, hother c' hne⟩) ?_
  rw [show (s.destroy c).refs c = none from update_self _ _ _,
    show (s.destroy c).destroyed c = s.destroyed c + 1 from update_self _ _ _, hold]
  exact ⟨nofun, fun _ => hzero, fun h => absurd rfl h, (if_pos ⟨hs.made c hc, rfl⟩).symm⟩

theorem Balanced.retain (control : Option C)
    (hheld : ∀ c, control = some c → 0 < holders s c + extra c) :
    ∃ s', retain control s = .ok s' ∧ s'.handles = s.handles ∧
      Balanced s' fun c => extra c + weight control c := by
  cases control with
  | none => exact ⟨s, rfl, rfl, hs⟩
  | some c =>
    cases hrefs : s.refs c with
    | none =>
      have hzero := hs.unheld c hrefs
      have hpos := hheld c rfl
      omega
    | some n =>
      obtain ⟨hcount, hpos⟩ := hs.counted c n hrefs
      refine ⟨s.setRefs c (some (n + 1)), ?_, rfl, hs.setRefs ?_ ?_ (Nat.succ_pos n) ?_⟩
      · simp only [SharedPointer.retain, hrefs]
      · simp [hrefs]
      · rw [weight_self]
        omega
      · intro c' hne
        rw [weight_of_ne hne, Nat.add_zero]

end

theorem Balanced.release {control : Option C}
    (hs : Balanced s fun c => extra c + weight control c) :
    ∃ s', release control s = .ok s' ∧ s'.handles = s.handles ∧ Balanced s' extra := by
  cases control with
  | none => exact ⟨s, rfl, rfl, hs⟩
  | some c =>
    have hother : ∀ c' ≠ c, extra c' = extra c' + weight (some c) c' := by
      intro c' hne
      rw [weight_of_ne hne, Nat.add_zero]
    cases hrefs : s.refs c with
    | none =>
      have hzero := hs.unheld c hrefs
      rw [weight_self] at hzero
      omega
    | some n =>
      have hsome : s.refs c ≠ none := by simp [hrefs]
      obtain ⟨hcount, hpos⟩ := hs.counted c n hrefs
      rw [weight_self] at hcount
      by_cases hlast : n = 1
      · refine ⟨s.destroy c, ?_, rfl, hs.destroy hsome (by omega) hother⟩
        simp only [SharedPointer.release, hrefs, hlast, if_true]
      · refine ⟨s.setRefs c (some (n - 1)), ?_, rfl, hs.setRefs hsome (by omega) (by omega) hother⟩
        simp only [SharedPointer.release, hrefs, hlast, if_false]

theorem Balanced.congr (hs : Balanced s extra) (heq : ∀ c, extra' c = extra c) :
    Balanced s extra' := by
  obtain rfl : extra' = extra := funext heq
  exact hs

theorem Balanced.make (hs : Balanced s extra) (hc : s.made c = false) :
    Balanced { s.setRefs c (some 1) with made := update s.made c true }
      fun c' => extra c' + weight (some c) c' := by
  have hnone : s.refs c = none := by
    by_contra hsome
    cases hc.symm.trans (hs.made c hsome)
  have hzero := hs.unheld c hnone
  have hold := hs.destroyed c
  rw [hc, if_neg fun h => by cases h.1] at hold
  refine hs.of_block rfl (fun c' hne => ⟨update_of_ne hne _ _, update_of_ne hne _ _, rfl,
    by rw [weight_of_ne hne, Nat.add_zero]⟩) ?_
  rw [show (s.setRefs c (some 1)).refs c = some 1 from update_self _ _ _, weight_self]
  refine ⟨fun m hm => ?_, nofun, fun _ => update_self _ _ _,
    hold.trans (if_neg fun h => ?_).symm⟩
  · cases hm
    omega
  · cases h.2

end Ledger

section Calls

variable [DecidableEq H] [Fintype H] {s : State H A C} {extra : C → ℕ} {h other : H} {p q : Handle A C}

theorem Balanced.makeShared (hs : Balanced s fun _ => 0) (hh : s.handles h = none)
    (hc : s.made c = false) (block : A) : Balanced (makeShared h block c s) fun _ => 0 := by
  have hput := (hs.make hc).put (p := some ⟨some block, some c⟩) h
  refine hput.congr fun c' => ?_
  change 0 = 0 + weight ((s.handles h).bind Handle.control) c'
  rw [hh]
  rfl

theorem Balanced.copy (hs : Balanced s fun _ => 0) (hh : s.handles h = none)
    (hp : s.handles other = some p) (f : A → A) : ∃ s', copy h other f s = .ok s' ∧
      s'.handles = update s.handles h (some (p.convert f)) ∧ Balanced s' fun _ => 0 := by
  obtain ⟨s₁, hretain, hhandles, hs₁⟩ := hs.retain p.control fun c hc => by
    have hpos : 0 < holders s c := holders_pos (by rw [hp]; exact hc)
    omega
  refine ⟨s₁.put h (some (p.convert f)), ?_, ?_, ?_⟩
  · rw [SharedPointer.copy, read_eq hp]
    change (SharedPointer.retain p.control s >>= fun s => _) = _
    rw [hretain]
    rfl
  · rw [← hhandles]
    rfl
  · refine (hs₁.put h).congr fun c => ?_
    rw [hhandles, hh]
    rfl

theorem Balanced.swapTemporary (hs : Balanced s fun c => extra c + weight q.control c)
    (hp : s.handles h = some p) : ∃ s', swapTemporary q h s = .ok s' ∧
      s'.handles = update s.handles h (some q) ∧ Balanced s' extra := by
  have hput := hs.put (p := some q) h
  rw [hp] at hput
  obtain ⟨s', hrelease, hhandles, hs'⟩ := hput.release
  refine ⟨s', ?_, hhandles, hs'⟩
  rw [SharedPointer.swapTemporary, read_eq hp]
  exact hrelease

theorem Balanced.assignCopy (hs : Balanced s fun _ => 0) (hh : s.handles h = some q)
    (hp : s.handles other = some p) (f : A → A) : ∃ s', assignCopy h other f s = .ok s' ∧
      s'.handles = update s.handles h (some (p.convert f)) ∧ Balanced s' fun _ => 0 := by
  obtain ⟨s₁, hretain, hhandles, hs₁⟩ := hs.retain p.control fun c hc => by
    have hpos : 0 < holders s c := holders_pos (by rw [hp]; exact hc)
    omega
  obtain ⟨s', hswap, hhandles', hs'⟩ := hs₁.swapTemporary (q := p.convert f) (hhandles ▸ hh)
  refine ⟨s', ?_, by rw [hhandles', hhandles], hs'⟩
  rw [SharedPointer.assignCopy, read_eq hp]
  change (SharedPointer.retain p.control s >>= fun s => _) = _
  rw [hretain]
  exact hswap

theorem Balanced.take (hs : Balanced s fun _ => 0) (hp : s.handles other = some p) :
    Balanced (s.put other (some .null)) fun c => 0 + weight p.control c := by
  have hput : Balanced (s.put other (some .null))
      fun c => 0 + weight ((s.handles other).bind Handle.control) c := hs.put other
  rw [hp] at hput
  exact hput

theorem Balanced.move (hs : Balanced s fun _ => 0) (hh : s.handles h = none)
    (hp : s.handles other = some p) (f : A → A) : ∃ s', move h other f s = .ok s' ∧
      s'.handles = update (update s.handles other (some .null)) h
        (some (p.convert f)) ∧ Balanced s' fun _ => 0 := by
  refine ⟨(s.put other (some .null)).put h (some (p.convert f)), ?_, rfl, ?_⟩
  · rw [SharedPointer.move, read_eq hp]
    rfl
  · have hne : h ≠ other := by
      rintro rfl
      cases hh.symm.trans hp
    have hfree : (s.put other (some .null)).handles h = none :=
      (update_of_ne hne _ _).trans hh
    refine ((hs.take hp).put h).congr fun c => ?_
    rw [hfree]
    rfl

theorem Balanced.assignMove (hs : Balanced s fun _ => 0) (hh : s.handles h = some q)
    (hp : s.handles other = some p) (f : A → A) : ∃ s', assignMove h other f s = .ok s' ∧
      s'.handles = update (update s.handles other (some .null)) h
        (some (p.convert f)) ∧ Balanced s' fun _ => 0 := by
  have hold : ∃ old, (s.put other (some .null)).handles h = some old := by
    by_cases heq : h = other
    · exact ⟨.null, heq ▸ update_self _ _ _⟩
    · exact ⟨q, (update_of_ne heq _ _).trans hh⟩
  obtain ⟨old, hold⟩ := hold
  obtain ⟨s', hswap, hhandles, hs'⟩ := (hs.take hp).swapTemporary (q := p.convert f) hold
  refine ⟨s', ?_, hhandles, hs'⟩
  rw [SharedPointer.assignMove, read_eq hp]
  exact hswap

variable {r : Option (Handle A C)}

theorem Balanced.drop (hs : Balanced s fun _ => 0) (hp : s.handles h = some p)
    (hr : r.bind Handle.control = none) :
    ∃ s₁, SharedPointer.release p.control s = .ok s₁ ∧ (s₁.put h r).handles = update s.handles h r ∧
      Balanced (s₁.put h r) fun _ => 0 := by
  have hnothing : Balanced s fun c => 0 + weight (r.bind Handle.control) c := hs.congr fun c => by
    rw [hr]
    rfl
  have hput := hnothing.put h
  rw [hp, bind_some] at hput
  obtain ⟨s', hrelease, hhandles, hs'⟩ := hput.release
  rw [release_put] at hrelease
  obtain ⟨s₁, hrelease₁, rfl⟩ : ∃ s₁, SharedPointer.release p.control s = .ok s₁ ∧ s' = s₁.put h r := by
    cases hcall : SharedPointer.release p.control s with
    | error stop =>
      rw [hcall] at hrelease
      cases hrelease
    | ok s₁ =>
      rw [hcall] at hrelease
      cases hrelease
      exact ⟨s₁, rfl, rfl⟩
  exact ⟨s₁, hrelease₁, hhandles, hs'⟩

theorem Balanced.destruct (hs : Balanced s fun _ => 0) (hp : s.handles h = some p) :
    ∃ s', destruct h s = .ok s' ∧ s'.handles = update s.handles h none ∧
      Balanced s' fun _ => 0 := by
  obtain ⟨s₁, hrelease, hhandles, hs'⟩ := hs.drop hp (r := none) rfl
  refine ⟨_, ?_, hhandles, hs'⟩
  rw [SharedPointer.destruct, read_eq hp]
  change (SharedPointer.release p.control s >>= fun s => _) = _
  rw [hrelease]
  rfl

theorem Balanced.reset (hs : Balanced s fun _ => 0) (hp : s.handles h = some p) :
    ∃ s', reset h s = .ok s' ∧ s'.handles = update s.handles h (some .null) ∧
      Balanced s' fun _ => 0 := by
  obtain ⟨s₁, hrelease, hhandles, hs'⟩ := hs.drop hp (r := some .null) rfl
  refine ⟨_, ?_, hhandles, hs'⟩
  rw [SharedPointer.reset, read_eq hp]
  change (SharedPointer.release p.control s >>= fun s => _) = _
  rw [hrelease]
  rfl

theorem Balanced.swap (hs : Balanced s fun _ => 0) (hh : s.handles h = some p)
    (hp : s.handles other = some q) : ∃ s', swap h other s = .ok s' ∧
      s'.handles = update (update s.handles h (some q)) other (some p) ∧
        Balanced s' fun _ => 0 := by
  refine ⟨(s.put h (some q)).put other (some p), ?_, rfl, ?_⟩
  · rw [SharedPointer.swap, read_eq hh]
    rw [read_eq hp]
    rfl
  · have hother : (s.put h (some q)).handles other = some q := by
      by_cases heq : other = h
      · subst heq
        exact update_self _ _ _
      · exact (update_of_ne heq _ _).trans hp
    have hsame : holders ((s.put h (some q)).put other (some p)) = holders s := by
      funext c
      have hfirst := holders_put s h (some q) c
      have hsecond := holders_put (s.put h (some q)) other (some p) c
      rw [hh] at hfirst
      rw [hother] at hsecond
      omega
    refine ⟨fun c n hn => ?_, fun c hnone => ?_, hs.made, hs.destroyed⟩
    · rw [hsame]
      exact hs.counted c n hn
    · rw [hsame]
      exact hs.unheld c hnone

end Calls

section Pairs

variable {s s' : State H A C} {h other : H} {p : Handle A C}

def PairedHandle (p : Option (Handle A C)) : Prop :=
  ∀ q ∈ p, (q.pointer = none ↔ q.control = none)

section

omit [DecidableEq C]

theorem Paired.update [DecidableEq H] (hs : Paired s) (hr : PairedHandle r)
    (hs' : s'.handles = update s.handles h r) : Paired s' := by
  intro h' q hq
  rw [hs'] at hq
  by_cases heq : h' = h
  · subst heq
    rw [update_self] at hq
    exact hr q hq
  · rw [update_of_ne heq] at hq
    exact hs h' q hq

theorem PairedHandle.null : PairedHandle (some (.null : Handle A C)) := by
  rintro q ⟨⟩
  exact Iff.intro (fun _ => rfl) fun _ => rfl

theorem Paired.convert (hs : Paired s) (hp : s.handles h = some p) (f : A → A) :
    PairedHandle (some (p.convert f)) := by
  rintro q ⟨⟩
  exact map_eq_none_iff.trans (hs h p hp)

end

end Pairs

section Runs

variable [DecidableEq H] [Fintype H] {s : State H A C}

/-- Before and after a call nothing is held but by handles. -/
structure Inv (s : State H A C) : Prop where
  balanced : Balanced s fun _ => 0
  paired : Paired s

theorem Inv.of_update {s' : State H A C} {h : H} (hs : Inv s) (hr : PairedHandle r)
    (hhandles : s'.handles = update s.handles h r) (hbalanced : Balanced s' fun _ => 0) : Inv s' :=
  ⟨hbalanced, hs.paired.update hr hhandles⟩

theorem Inv.of_move {s' : State H A C} {h other : H} {r' : Option (Handle A C)} (hs : Inv s)
    (hr : PairedHandle r) (hr' : PairedHandle r')
    (hhandles : s'.handles = update (update s.handles other r) h r')
    (hbalanced : Balanced s' fun _ => 0) : Inv s' :=
  ⟨hbalanced, Paired.update (s := s.put other r) (hs.paired.update hr rfl) hr' hhandles⟩

omit [DecidableEq H] in
theorem inv_start : Inv (start : State H A C) := by
  refine ⟨⟨fun c n hn => ?_, fun c _ => ?_, fun c hc => ?_, fun c => ?_⟩, fun h p hp => ?_⟩
  · cases hn
  · exact card_eq_zero.mpr (filter_eq_empty_iff.mpr fun h _ hh => by cases hh)
  · exact absurd rfl hc
  · exact (if_neg fun h => by cases h.1).symm
  · cases hp

section

variable (hs : Inv s)
include hs

theorem Inv.copy {h other : H} (hh : s.handles h = none) (hp : s.handles other ≠ none) (f : A → A) :
    ∃ s', SharedPointer.copy h other f s = .ok s' ∧ Inv s' := by
  obtain ⟨p, hp⟩ := ne_none_iff_exists'.mp hp
  obtain ⟨s', hcall, hhandles, hs'⟩ := hs.balanced.copy hh hp f
  exact ⟨s', hcall, hs.of_update (hs.paired.convert hp f) hhandles hs'⟩

theorem Inv.move {h other : H} (hh : s.handles h = none) (hp : s.handles other ≠ none) (f : A → A) :
    ∃ s', SharedPointer.move h other f s = .ok s' ∧ Inv s' := by
  obtain ⟨p, hp⟩ := ne_none_iff_exists'.mp hp
  obtain ⟨s', hcall, hhandles, hs'⟩ := hs.balanced.move hh hp f
  exact ⟨s', hcall, hs.of_move .null (hs.paired.convert hp f) hhandles hs'⟩

theorem Inv.assignCopy {h other : H} (hh : s.handles h ≠ none) (hp : s.handles other ≠ none)
    (f : A → A) : ∃ s', SharedPointer.assignCopy h other f s = .ok s' ∧ Inv s' := by
  obtain ⟨q, hh⟩ := ne_none_iff_exists'.mp hh
  obtain ⟨p, hp⟩ := ne_none_iff_exists'.mp hp
  obtain ⟨s', hcall, hhandles, hs'⟩ := hs.balanced.assignCopy hh hp f
  exact ⟨s', hcall, hs.of_update (hs.paired.convert hp f) hhandles hs'⟩

theorem Inv.assignMove {h other : H} (hh : s.handles h ≠ none) (hp : s.handles other ≠ none)
    (f : A → A) : ∃ s', SharedPointer.assignMove h other f s = .ok s' ∧ Inv s' := by
  obtain ⟨q, hh⟩ := ne_none_iff_exists'.mp hh
  obtain ⟨p, hp⟩ := ne_none_iff_exists'.mp hp
  obtain ⟨s', hcall, hhandles, hs'⟩ := hs.balanced.assignMove hh hp f
  exact ⟨s', hcall, hs.of_move .null (hs.paired.convert hp f) hhandles hs'⟩

theorem Inv.exec (a : Call H A C) (hlegal : Legal s a) :
    ∃ s' r, SharedPointer.exec s a = .ok (s', r) ∧ Inv s' := by
  have hmap : ∀ {x : Except Stop (State H A C)}, (∃ s', x = .ok s' ∧ Inv s') →
      ∃ s' r, x.map (·, ()) = .ok (s', r) ∧ Inv s' := by
    rintro x ⟨s', rfl, hs'⟩
    exact ⟨s', (), rfl, hs'⟩
  cases a with
  | construct h =>
    refine ⟨_, (), rfl, hs.of_update .null rfl ?_⟩
    refine (hs.balanced.put h).congr fun c => ?_
    rw [show s.handles h = none from hlegal]
    rfl
  | makeShared h block c =>
    refine ⟨_, (), rfl, hs.of_update ?_ rfl
      (hs.balanced.makeShared hlegal.1 hlegal.2 block)⟩
    rintro q ⟨⟩
    exact Iff.intro (fun hnull => by cases hnull) fun hnull => by cases hnull
  | copy h other => exact hmap (hs.copy hlegal.1 hlegal.2 id)
  | move h other => exact hmap (hs.move hlegal.1 hlegal.2 id)
  | convertCopy h other f => exact hmap (hs.copy hlegal.1 hlegal.2 f)
  | convertMove h other f => exact hmap (hs.move hlegal.1 hlegal.2 f)
  | destruct h =>
    obtain ⟨p, hp⟩ := ne_none_iff_exists'.mp hlegal
    obtain ⟨s', hcall, hhandles, hs'⟩ := hs.balanced.destruct hp
    exact hmap ⟨s', hcall, hs.of_update (fun q hq => by cases hq) hhandles hs'⟩
  | assignCopy h other => exact hmap (hs.assignCopy hlegal.1 hlegal.2 id)
  | assignMove h other => exact hmap (hs.assignMove hlegal.1 hlegal.2 id)
  | assignConvertCopy h other f => exact hmap (hs.assignCopy hlegal.1 hlegal.2 f)
  | assignConvertMove h other f => exact hmap (hs.assignMove hlegal.1 hlegal.2 f)
  | reset h =>
    obtain ⟨p, hp⟩ := ne_none_iff_exists'.mp hlegal
    obtain ⟨s', hcall, hhandles, hs'⟩ := hs.balanced.reset hp
    exact hmap ⟨s', hcall, hs.of_update .null hhandles hs'⟩
  | swap h other =>
    obtain ⟨p, hp⟩ := ne_none_iff_exists'.mp hlegal.1
    obtain ⟨q, hq⟩ := ne_none_iff_exists'.mp hlegal.2
    obtain ⟨s', hcall, hhandles, hs'⟩ := hs.balanced.swap hp hq
    have hpaired : ∀ {h' : H} {p : Handle A C}, s.handles h' = some p → PairedHandle (some p) := by
      rintro h' p hp q ⟨⟩
      exact hs.paired h' p hp
    exact hmap ⟨s', hcall, hs.of_move (hpaired hq) (hpaired hp) hhandles hs'⟩

end

/-- A count is the number of handles that hold its block, a handle has no object exactly if it has
no block, and a block that was made is destroyed once no handle holds it any more, and then once. -/
structure Counted (s : State H A C) : Prop where
  count : ∀ c n, s.refs c = some n → n = holders s c
  pairs : ∀ h p, s.handles h = some p → (p.pointer = none ↔ p.control = none)
  alive : ∀ c, s.refs c ≠ none ↔ 0 < holders s c
  destroyed : ∀ c, s.made c = true → s.destroyed c = if 0 < holders s c then 0 else 1

omit [DecidableEq H] in
theorem Inv.counted (hs : Inv s) : Counted s := by
  have halive : ∀ c, s.refs c ≠ none ↔ 0 < holders s c := by
    intro c
    cases hrefs : s.refs c with
    | none =>
      have hzero := hs.balanced.unheld c hrefs
      simp only [ne_eq, not_true_eq_false, false_iff]
      omega
    | some n =>
      have hcount := hs.balanced.counted c n hrefs
      simp only [ne_eq, reduceCtorEq, not_false_eq_true, true_iff]
      omega
  refine ⟨fun c n hn => (hs.balanced.counted c n hn).1, hs.paired, halive, fun c hmade => ?_⟩
  rw [hs.balanced.destroyed c]
  by_cases hpos : 0 < holders s c
  · rw [if_pos hpos, if_neg fun h => (halive c).mpr hpos h.2]
  · rw [if_neg hpos, if_pos ⟨hmade, not_not.mp fun h => hpos ((halive c).mp h)⟩]

/-- Every run of calls in good order returns with the handles counted. -/
theorem handles_counted (calls : List (Call H A C))
    (hlegal : Library.Calls.Guarded exec Legal start calls) :
    ∃ s rs, Library.Calls.run exec (start : State H A C) calls = .ok (s, rs) ∧ Counted s := by
  obtain ⟨s, rs, hrun, hs⟩ := Library.Calls.run_returns Inv (fun s a hs hlegal => hs.exec a hlegal)
    inv_start hlegal
  exact ⟨s, rs, hrun, hs.counted⟩

end Runs

/-- Three handles of one object, assigned to themselves and to each other until none is left. -/
def smallRun (a b c : Fin 3) : List (Call (Fin 3) ℕ ℕ) :=
  [.makeShared a 8 0, .copy b a, .assignCopy a a, .assignMove b b, .convertCopy c b (· + 4),
    .assignConvertCopy c a (· + 4), .assignMove a b, .swap a c, .reset c, .destruct a]

theorem handles_counted_small : ∃ s rs,
    Library.Calls.run exec (start : State (Fin 3) ℕ ℕ) (smallRun 0 1 2) = .ok (s, rs) ∧ Counted s :=
  handles_counted (smallRun 0 1 2) (by decide +kernel)

end Equilibrium.SharedPointer
