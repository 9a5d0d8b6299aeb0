import Mathlib.Tactic.SplitIfs
/-! Sequential runs of a system of fallible calls. A call either stops the
program or returns a reply and a new state; a run feeds a list of calls through
the system and collects the replies. One step lemma gives a fact about every
run, and one step of a simulation gives a simulation of runs. -/

namespace Equilibrium.Library.Calls

open Prod

variable {σ τ α ρ ε : Type*}

def run (exec : σ → α → Except ε (σ × ρ)) : σ → List α → Except ε (σ × List ρ)
  | s, [] => .ok (s, [])
  | s, a :: rest =>
    match exec s a with
    | .error stop => .error stop
    | .ok (s', r) =>
      match run exec s' rest with
      | .error stop => .error stop
      | .ok (s'', rs) => .ok (s'', r :: rs)

/-- Every call of the run is made in a state that meets the guard. -/
def Guarded (exec : σ → α → Except ε (σ × ρ)) (guard : σ → α → Prop) : σ → List α → Prop
  | _, [] => True
  | s, a :: rest => guard s a ∧ ∀ s' r, exec s a = .ok (s', r) → Guarded exec guard s' rest

instance decidableGuarded (exec : σ → α → Except ε (σ × ρ)) (guard : σ → α → Prop)
    [∀ s a, Decidable (guard s a)] : ∀ s calls, Decidable (Guarded exec guard s calls)
  | _, [] => isTrue trivial
  | s, a :: rest =>
    if hg : guard s a then
      match hx : exec s a with
      | .error _ => isTrue ⟨hg, fun s' r h => by simp [hx] at h⟩
      | .ok (s₁, _) =>
        match decidableGuarded exec guard s₁ rest with
        | isTrue h => isTrue ⟨hg, fun s' r h' => by
            simp only [hx, Except.ok.injEq, Prod.mk.injEq] at h'
            exact h'.1 ▸ h⟩
        | isFalse h => isFalse fun hall => h (hall.2 _ _ hx)
    else isFalse fun hall => hg hall.1

variable {exec : σ → α → Except ε (σ × ρ)} {s : σ} {rs : List ρ}

theorem run_cons_ok {s'' : σ} {a : α} {rest : List α} (h : run exec s (a :: rest) = .ok (s'', rs)) :
    ∃ s' r rs', exec s a = .ok (s', r) ∧ run exec s' rest = .ok (s'', rs') ∧ rs = r :: rs' := by
  simp only [run] at h
  cases hx : exec s a with
  | error stop => simp [hx] at h
  | ok p =>
    obtain ⟨s', r⟩ := p
    cases hr : run exec s' rest with
    | error stop => simp [hx, hr] at h
    | ok q =>
      obtain ⟨t, rs'⟩ := q
      simp only [hx, hr, Except.ok.injEq, mk.injEq] at h
      exact ⟨s', r, rs', rfl, by rw [hr, h.1], h.2.symm⟩

variable {guard : σ → α → Prop} {calls : List α} {s' : σ}

theorem run_invariant (Inv : σ → Prop)
    (step : ∀ s a s' r, Inv s → guard s a → exec s a = .ok (s', r) → Inv s') (hs : Inv s)
    (hg : Guarded exec guard s calls) (h : run exec s calls = .ok (s', rs)) : Inv s' := by
  induction calls generalizing s rs with
  | nil =>
    simp only [run, Except.ok.injEq, mk.injEq] at h
    exact h.1 ▸ hs
  | cons a rest ih =>
    obtain ⟨s₁, r, rs', hx, hr, -⟩ := run_cons_ok h
    exact ih (step s a s₁ r hs hg.1 hx) (hg.2 s₁ r hx) hr

theorem run_avoids (Inv : σ → Prop)
    (step : ∀ s a s' r, Inv s → guard s a → exec s a = .ok (s', r) → Inv s') {stop : ε}
    (avoids : ∀ s a, Inv s → guard s a → exec s a ≠ .error stop) (hs : Inv s)
    (hg : Guarded exec guard s calls) : run exec s calls ≠ .error stop := by
  induction calls generalizing s with
  | nil => simp [run]
  | cons a rest ih =>
    cases hx : exec s a with
    | error stop' =>
      have := avoids s a hs hg.1
      simp only [run, hx]
      simpa [hx] using this
    | ok p =>
      obtain ⟨s₁, r⟩ := p
      have hrest := ih (step s a s₁ r hs hg.1 hx) (hg.2 s₁ r hx)
      cases hr : run exec s₁ rest with
      | error stop' => simpa [run, hx, hr] using hrest
      | ok q => simp [run, hx, hr]

def total (spec : τ → α → τ × ρ) : τ → List α → τ × List ρ
  | t, [] => (t, [])
  | t, a :: rest => ((total spec (spec t a).1 rest).1, (spec t a).2 :: (total spec (spec t a).1 rest).2)

variable {t : τ} {spec : τ → α → τ × ρ}

theorem run_simulates {exec : σ → α → Except ε (σ × ρ)} {guard : σ → α → Prop} (R : σ → τ → Prop)
    (step : ∀ s t a s' r, R s t → guard s a → exec s a = .ok (s', r) →
      r = (spec t a).2 ∧ R s' (spec t a).1) {calls : List α} {s s' : σ} {t : τ} {rs : List ρ}
    (hst : R s t) (hg : Guarded exec guard s calls) (h : run exec s calls = .ok (s', rs)) :
    rs = (total spec t calls).2 ∧ R s' (total spec t calls).1 := by
  induction calls generalizing s t rs with
  | nil =>
    simp only [run, Except.ok.injEq, mk.injEq] at h
    exact ⟨h.2.symm, h.1 ▸ hst⟩
  | cons a rest ih =>
    obtain ⟨s₁, r, rs', hx, hr, rfl⟩ := run_cons_ok h
    obtain ⟨hreply, hrel⟩ := step s t a s₁ r hst hg.1 hx
    obtain ⟨hreplies, hfinal⟩ := ih hrel (hg.2 s₁ r hx) hr
    exact ⟨by rw [total, hreply, hreplies], hfinal⟩

/-- The replies `rs` are allowed, one after the other, from `t` to `t'`. -/
def Trace (allowed : τ → α → ρ → τ → Prop) : τ → List α → List ρ → τ → Prop
  | t, [], rs, t' => rs = [] ∧ t = t'
  | t, a :: rest, rs, t' => ∃ r rs' t₁, rs = r :: rs' ∧ allowed t a r t₁ ∧
      Trace allowed t₁ rest rs' t'

theorem run_total (R : σ → τ → Prop)
    (step : ∀ s t a, R s t → ∃ s', exec s a = .ok (s', (spec t a).2) ∧ R s' (spec t a).1)
    (hst : R s t) (calls : List α) :
    ∃ s', run exec s calls = .ok (s', (total spec t calls).2) ∧ R s' (total spec t calls).1 := by
  induction calls generalizing s t with
  | nil => exact ⟨s, rfl, hst⟩
  | cons a rest ih =>
    obtain ⟨s₁, hx, hrel⟩ := step s t a hst
    obtain ⟨s', hr, hfinal⟩ := ih hrel
    exact ⟨s', by simp [run, hx, hr, total], hfinal⟩

theorem run_matches {exec : σ → α → Except ε (σ × ρ)} {guard : σ → α → Prop} (R : σ → τ → Prop)
    (step : ∀ s t a, R s t → guard s a →
      ∃ s', exec s a = .ok (s', (spec t a).2) ∧ R s' (spec t a).1) {calls : List α} {s : σ} {t : τ}
    (hst : R s t) (hg : Guarded exec guard s calls) :
    ∃ s', run exec s calls = .ok (s', (total spec t calls).2) ∧ R s' (total spec t calls).1 := by
  induction calls generalizing s t with
  | nil => exact ⟨s, rfl, hst⟩
  | cons a rest ih =>
    obtain ⟨s₁, hx, hrel⟩ := step s t a hst hg.1
    obtain ⟨s', hr, hfinal⟩ := ih hrel (hg.2 s₁ _ hx)
    exact ⟨s', by simp [run, hx, hr, total], hfinal⟩

theorem run_returns (Inv : σ → Prop)
    (step : ∀ s a, Inv s → guard s a → ∃ s' r, exec s a = .ok (s', r) ∧ Inv s') (hs : Inv s)
    (hg : Guarded exec guard s calls) : ∃ s' rs, run exec s calls = .ok (s', rs) ∧ Inv s' := by
  induction calls generalizing s with
  | nil => exact ⟨s, [], rfl, hs⟩
  | cons a rest ih =>
    obtain ⟨s₁, r, hx, hinv⟩ := step s a hs hg.1
    obtain ⟨s', rs, hr, hfinal⟩ := ih hinv (hg.2 s₁ r hx)
    exact ⟨s', r :: rs, by simp [run, hx, hr], hfinal⟩

theorem guarded_of_forall {exec : σ → α → Except ε (σ × ρ)} {guard : σ → α → Prop}
    {calls : List α} (h : ∀ a ∈ calls, ∀ s, guard s a) (s : σ) : Guarded exec guard s calls := by
  induction calls generalizing s with
  | nil => trivial
  | cons a rest ih =>
    exact ⟨h a (by simp) s, fun s' r _ => ih (fun b hb => h b (by simp [hb])) s'⟩

theorem run_traces {exec : σ → α → Except ε (σ × ρ)} {allowed : τ → α → ρ → τ → Prop}
    {guard : σ → α → Prop} (R : σ → τ → Prop)
    (step : ∀ s t a, R s t → guard s a →
      ∃ s' r t', exec s a = .ok (s', r) ∧ allowed t a r t' ∧ R s' t')
    {s : σ} {t : τ} {calls : List α} (hst : R s t) (hg : Guarded exec guard s calls) :
    ∃ s' rs t', run exec s calls = .ok (s', rs) ∧ Trace allowed t calls rs t' ∧ R s' t' := by
  induction calls generalizing s t with
  | nil => exact ⟨s, [], t, rfl, ⟨rfl, rfl⟩, hst⟩
  | cons a rest ih =>
    obtain ⟨s₁, r, t₁, hx, hallowed, hrel⟩ := step s t a hst hg.1
    obtain ⟨s', rs, t', hr, htrace, hfinal⟩ := ih hrel (hg.2 s₁ r hx)
    exact ⟨s', r :: rs, t', by simp [run, hx, hr], ⟨r, rs, t₁, rfl, hallowed, htrace⟩, hfinal⟩

theorem run_trace {allowed : τ → α → ρ → τ → Prop} (R : σ → τ → Prop)
    (step : ∀ s t a, R s t → ∃ s' r t', exec s a = .ok (s', r) ∧ allowed t a r t' ∧ R s' t')
    (hst : R s t) (calls : List α) :
    ∃ s' rs t', run exec s calls = .ok (s', rs) ∧ Trace allowed t calls rs t' ∧ R s' t' :=
  run_traces R (fun s t a h _ => step s t a h) hst
    (guarded_of_forall (fun _ _ _ => trivial) s : Guarded exec (fun _ _ => True) s calls)

theorem run_append {calls' : List α} {s'' : σ} {rs' : List ρ} (h : run exec s calls = .ok (s', rs))
    (h' : run exec s' calls' = .ok (s'', rs')) :
    run exec s (calls ++ calls') = .ok (s'', rs ++ rs') := by
  induction calls generalizing s rs with
  | nil =>
    obtain ⟨rfl, rfl⟩ := mk.inj (Except.ok.inj h)
    exact h'
  | cons a rest ih =>
    obtain ⟨s₁, r, rs₁, hx, hr, rfl⟩ := run_cons_ok h
    simp only [List.cons_append, run, hx, ih hr]

theorem guarded_append {calls' : List α} (hg : Guarded exec guard s calls)
    (h : run exec s calls = .ok (s', rs)) (hg' : Guarded exec guard s' calls') :
    Guarded exec guard s (calls ++ calls') := by
  induction calls generalizing s rs with
  | nil =>
    obtain ⟨rfl, -⟩ := mk.inj (Except.ok.inj h)
    exact hg'
  | cons a rest ih =>
    obtain ⟨s₁, r, rs₁, hx, hr, -⟩ := run_cons_ok h
    refine ⟨hg.1, fun s₂ r₂ hx₂ => ?_⟩
    obtain ⟨rfl, -⟩ := mk.inj (Except.ok.inj (hx.symm.trans hx₂))
    exact ih (hg.2 s₁ r hx) hr

theorem guarded_of_append {calls' : List α} (hg : Guarded exec guard s (calls ++ calls')) :
    Guarded exec guard s calls ∧
      ∀ s' rs, run exec s calls = .ok (s', rs) → Guarded exec guard s' calls' := by
  induction calls generalizing s with
  | nil =>
    refine ⟨trivial, fun s' rs h => ?_⟩
    obtain ⟨rfl, -⟩ := mk.inj (Except.ok.inj h)
    exact hg
  | cons a rest ih =>
    refine ⟨⟨hg.1, fun s₁ r hx => (ih (hg.2 s₁ r hx)).1⟩, fun s' rs h => ?_⟩
    obtain ⟨s₁, r, rs', hx, hr, -⟩ := run_cons_ok h
    exact (ih (hg.2 s₁ r hx)).2 s' rs' hr

theorem guarded_congr {legal guard' : σ → α → Prop} (Inv : σ → Prop)
    (hiff : ∀ s a, Inv s → legal s a → (guard s a ↔ guard' s a))
    (step : ∀ s a s' r, Inv s → legal s a → guard s a → exec s a = .ok (s', r) → Inv s')
    (hs : Inv s) (hlegal : Guarded exec legal s calls) :
    Guarded exec guard s calls ↔ Guarded exec guard' s calls := by
  induction calls generalizing s with
  | nil => exact Iff.rfl
  | cons a rest ih =>
    have hfirst := hiff s a hs hlegal.1
    constructor
    · intro h
      refine ⟨hfirst.mp h.1, fun s' r hx => ?_⟩
      exact (ih (step s a s' r hs hlegal.1 h.1 hx) (hlegal.2 s' r hx)).mp (h.2 s' r hx)
    · intro h
      have hg := hfirst.mpr h.1
      refine ⟨hg, fun s' r hx => ?_⟩
      exact (ih (step s a s' r hs hlegal.1 hg hx) (hlegal.2 s' r hx)).mpr (h.2 s' r hx)

theorem guarded_of_invariant {exec : σ → α → Except ε (σ × ρ)} {legal cond guard : σ → α → Prop}
    (Inv : σ → Prop) (hguard : ∀ s a, Inv s → legal s a → cond s a → guard s a)
    (step : ∀ s a s' r, Inv s → legal s a → cond s a → exec s a = .ok (s', r) → Inv s')
    {calls : List α} {s : σ} (hs : Inv s) (hlegal : Guarded exec legal s calls)
    (hcond : Guarded exec cond s calls) : Guarded exec guard s calls := by
  induction calls generalizing s with
  | nil => trivial
  | cons a rest ih =>
    refine ⟨hguard s a hs hlegal.1 hcond.1, fun s' r hx => ?_⟩
    exact ih (step s a s' r hs hlegal.1 hcond.1 hx) (hlegal.2 s' r hx) (hcond.2 s' r hx)

end Equilibrium.Library.Calls
