import Mathlib.Tactic.Common
import Mathlib.Data.Nat.Init

/-! Machines whose threads interleave at atomic steps. An action names the thread
that moves and what the environment chooses for it. An execution gives a state for
every instant; at an instant without an action nothing changes. -/

namespace Equilibrium.Library.Interleaving

structure Machine (σ α : Type) where
  init : σ
  step : σ → α → Option σ

variable {σ α : Type} {M : Machine σ α}

namespace Machine

inductive Reachable (M : Machine σ α) : σ → Prop
  | init : Reachable M M.init
  | step {s s' : σ} (a : α) (hs : Reachable M s) (h : M.step s a = some s') : Reachable M s'

theorem Reachable.invariant {Inv : σ → Prop} (hinit : Inv M.init)
    (hstep : ∀ s a s', Inv s → M.step s a = some s' → Inv s') {s : σ} (h : M.Reachable s) :
    Inv s := by
  induction h with
  | init => exact hinit
  | step a _ hs ih => exact hstep _ a _ ih hs

def run (M : Machine σ α) : σ → List α → Option σ
  | s, [] => some s
  | s, a :: rest => (M.step s a).bind fun s' => run M s' rest

theorem run_cons {s s' : σ} {a : α} {rest : List α} :
    M.run s (a :: rest) = some s' ↔ ∃ t, M.step s a = some t ∧ M.run t rest = some s' := by
  simp [run, Option.bind_eq_some_iff]

theorem run_append (s : σ) (acts rest : List α) :
    M.run s (acts ++ rest) = (M.run s acts).bind fun s' => M.run s' rest := by
  induction acts generalizing s with
  | nil => rfl
  | cons a acts ih =>
    rw [List.cons_append, run, run]
    cases M.step s a with
    | none => rfl
    | some s' => exact ih s'

theorem Reachable.run {s s' : σ} (hs : M.Reachable s) {acts : List α}
    (h : M.run s acts = some s') : M.Reachable s' := by
  induction acts generalizing s with
  | nil => exact Option.some.inj h ▸ hs
  | cons a rest ih =>
    obtain ⟨t, ht, hrest⟩ := run_cons.mp h
    exact ih (.step a hs ht) hrest

end Machine

structure Execution (M : Machine σ α) where
  state : ℕ → σ
  act : ℕ → Option α
  start : state 0 = M.init
  next : ∀ i, (act i).elim (some (state i)) (M.step (state i)) = some (state (i + 1))

namespace Execution

variable (e : Execution M)

theorem next_none {i : ℕ} (h : e.act i = none) : e.state (i + 1) = e.state i := by
  have := e.next i
  rw [h] at this
  exact (Option.some.inj this).symm

theorem next_some {i : ℕ} {a : α} (h : e.act i = some a) :
    M.step (e.state i) a = some (e.state (i + 1)) := by
  have := e.next i
  rwa [h] at this

theorem next_cases (i : ℕ) : e.state (i + 1) = e.state i ∨
    ∃ a, e.act i = some a ∧ M.step (e.state i) a = some (e.state (i + 1)) := by
  cases h : e.act i with
  | none => exact .inl (e.next_none h)
  | some a => exact .inr ⟨a, rfl, e.next_some h⟩

theorem invariant {Guard : σ → α → Prop} {Inv : σ → Prop} (hinit : Inv M.init)
    (hstep : ∀ s a s', Inv s → Guard s a → M.step s a = some s' → Inv s')
    (hguard : ∀ i a, e.act i = some a → Guard (e.state i) a) (i : ℕ) : Inv (e.state i) := by
  induction i with
  | zero => exact e.start ▸ hinit
  | succ i ih =>
    rcases e.next_cases i with heq | ⟨a, ha, hs⟩
    · exact heq ▸ ih
    · exact hstep _ a _ ih (hguard i a ha) hs

theorem reachable (i : ℕ) : M.Reachable (e.state i) := by
  induction i with
  | zero => exact e.start ▸ .init
  | succ i ih =>
    rcases e.next_cases i with heq | ⟨a, _, hs⟩
    · exact heq ▸ ih
    · exact .step a ih hs

end Execution

def stateAt (M : Machine σ α) : σ → List α → ℕ → σ
  | s, [], _ => s
  | s, _ :: _, 0 => s
  | s, a :: rest, i + 1 => stateAt M ((M.step s a).getD s) rest i

theorem stateAt_zero (s : σ) (acts : List α) : stateAt M s acts 0 = s := by
  cases acts <;> rfl

def Execution.ofRun (acts : List α) (h : (M.run M.init acts).isSome) : Execution M where
  state := stateAt M M.init acts
  act := fun i => acts[i]?
  start := stateAt_zero _ _
  next := by
    generalize M.init = s at h ⊢
    intro i
    induction acts generalizing s i with
    | nil => rfl
    | cons a rest ih =>
      cases hs : M.step s a with
      | none => simp [Machine.run, hs] at h
      | some t =>
        have hrest : (M.run t rest).isSome := by simpa [Machine.run, hs] using h
        cases i with
        | zero => simp [stateAt, hs, stateAt_zero]
        | succ i => simpa [stateAt, hs] using ih t hrest i

theorem Execution.ofRun_guarded {P : σ → α → Prop} {acts : List α}
    {h : (M.run M.init acts).isSome}
    (hguard : ∀ i < acts.length, ∀ a ∈ acts[i]?, P (stateAt M M.init acts i) a) (i : ℕ) (a : α)
    (ha : (Execution.ofRun acts h).act i = some a) : P ((Execution.ofRun acts h).state i) a :=
  hguard i (List.getElem?_eq_some_iff.mp ha).1 a ha

@[simp] theorem Execution.ofRun_state (acts : List α) (h : (M.run M.init acts).isSome) (i : ℕ) :
    (Execution.ofRun acts h).state i = stateAt M M.init acts i := rfl

end Equilibrium.Library.Interleaving
