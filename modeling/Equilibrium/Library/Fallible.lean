import Mathlib.Data.Nat.Init
import Mathlib.Tactic.TypeStar

/-! Computations that may give up: rules for what they return when they do not, and for one that is
taken over and over. -/

namespace Equilibrium.Library.Fallible

universe u

variable {ε : Type*} {β γ : Type u} {stop : ε} {refused refused' : Prop}

/-- The computation returns a value with `post`; only where `refused` holds, it may stop with
`stop` instead. -/
def Returns (stop : ε) (refused : Prop) (post : β → Prop) : Except ε β → Prop
  | .ok b => post b
  | .error reason => reason = stop ∧ refused

variable {post post' : β → Prop} {goal : γ → Prop} {result : Except ε β} {next : β → Except ε γ}

theorem Returns.bind (h : Returns stop refused post result)
    (hnext : ∀ b, post b → Returns stop refused goal (next b)) :
    Returns stop refused goal (result >>= next) := by
  cases result with
  | ok b => exact hnext b h
  | error reason => exact h

theorem Returns.imp (h : Returns stop refused post result) (hrefused : refused → refused')
    (hpost : ∀ b, post b → post' b) : Returns stop refused' post' result := by
  cases result with
  | ok b => exact hpost b h
  | error reason => exact ⟨h.1, hrefused h.2⟩

theorem Returns.of_eq {b : β} (h : result = .ok b) (hpost : post b) :
    Returns stop refused post result := by
  rw [h]
  exact hpost

/-- The computation returns a value with `post`. -/
abbrev Ends (post : β → Prop) (result : Except ε β) : Prop := ∃ b, result = .ok b ∧ post b

theorem Ends.bind (h : Ends post result) (hnext : ∀ b, post b → Ends goal (next b)) :
    Ends goal (result >>= next) := by
  obtain ⟨b, rfl, hb⟩ := h
  exact hnext b hb

theorem bind_eq_ok {c : γ} : result >>= next = .ok c ↔ ∃ b, result = .ok b ∧ next b = .ok c := by
  cases result with
  | ok b => simp [bind, Except.bind]
  | error reason => simp [bind, Except.bind]

section Iterate

variable {α : Type*} {step : α → Option α} {size : α → ℕ} {Inv : α → Prop} {a : α}

/-- The step so many times. -/
def iterate (step : α → Option α) : ℕ → α → Option α
  | 0, a => some a
  | n + 1, a => (step a).bind (iterate step n)

/-- From every good value the step leads to a good one, itself or a smaller one. -/
def Shrinks (Inv : α → Prop) (size : α → ℕ) (step : α → Option α) : Prop :=
  ∀ a, Inv a → ∃ b, step a = some b ∧ Inv b ∧ (b = a ∨ size b < size a)

theorem iterate_of_still (h : step a = some a) (n : ℕ) : iterate step n a = some a := by
  induction n with
  | zero => rfl
  | succ n ih => rw [iterate, h, Option.bind_some, ih]

theorem Shrinks.iterate (h : Shrinks Inv size step) (ha : Inv a) (n : ℕ) :
    ∃ b, iterate step n a = some b ∧ Inv b := by
  induction n generalizing a with
  | zero => exact ⟨a, rfl, ha⟩
  | succ n ih =>
    obtain ⟨b, hstep, hb, -⟩ := h a ha
    rw [Fallible.iterate, hstep]
    exact ih hb

/-- It rests after as many steps as the number says. -/
theorem Shrinks.settles (h : Shrinks Inv size step) (ha : Inv a) :
    ∃ b, Inv b ∧ step b = some b ∧ ∀ n ≥ size a, Fallible.iterate step n a = some b := by
  induction hsize : size a using Nat.strong_induction_on generalizing a with
  | _ k ih =>
    obtain ⟨b, hstep, hb, hcases⟩ := h a ha
    rcases hcases with rfl | hless
    · exact ⟨b, hb, hstep, fun n _ => iterate_of_still hstep n⟩
    · obtain ⟨c, hc, hstill, hrest⟩ := ih (size b) (hsize ▸ hless) hb rfl
      refine ⟨c, hc, hstill, fun n hn => ?_⟩
      cases n with
      | zero => exact absurd (hsize ▸ hless) (by omega)
      | succ n =>
        rw [Fallible.iterate, hstep]
        exact hrest n (by omega)

end Iterate

end Equilibrium.Library.Fallible
