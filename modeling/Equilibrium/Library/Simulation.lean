import Mathlib.Tactic.Common

/-! Steps on a state that may fail. `x` simulates `y` along a relation of their states
where it follows every successful run of `y`, with the same value. -/

namespace Equilibrium.Library.Simulation

variable {σ τ α β : Type} {R : σ → τ → Prop}

def Simulates (R : σ → τ → Prop) (x : StateT σ Option α) (y : StateT τ Option α) : Prop :=
  ∀ s t a t', R s t → y t = some (a, t') → ∃ s', x s = some (a, s') ∧ R s' t'

theorem Simulates.pure (a : α) : Simulates R (pure a) (pure a) := by
  intro s t b t' hR hy
  cases hy
  exact ⟨s, rfl, hR⟩

theorem simulates_none {x : StateT σ Option α} : Simulates R x fun _ => none :=
  fun _ _ _ _ _ hy => absurd hy nofun

theorem Simulates.bind {x : StateT σ Option α} {y : StateT τ Option α}
    {f : α → StateT σ Option β} {g : α → StateT τ Option β} (hx : Simulates R x y)
    (hf : ∀ a, Simulates R (f a) (g a)) : Simulates R (x >>= f) (y >>= g) := by
  intro s t b t'' hR hy
  obtain ⟨⟨a, t'⟩, hyt, hg⟩ := Option.bind_eq_some_iff.mp hy
  obtain ⟨s', hs', hR'⟩ := hx s t a t' hR hyt
  obtain ⟨s'', hs'', hR''⟩ := hf a s' t' b t'' hR' hg
  refine ⟨s'', ?_, hR''⟩
  change (x s).bind (fun p => f p.1 p.2) = _
  rw [hs', Option.bind_some]
  exact hs''

theorem Simulates.ite {c : Prop} [Decidable c] {x x' : StateT σ Option α}
    {y y' : StateT τ Option α} (h : Simulates R x y) (h' : Simulates R x' y') :
    Simulates R (if c then x else x') (if c then y else y') := by
  split
  · exact h
  · exact h'

end Equilibrium.Library.Simulation
