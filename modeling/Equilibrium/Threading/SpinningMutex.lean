import Equilibrium.Library.Interleaving
import Mathlib.Data.Fintype.Defs

/-! The futex mutex of `base/threading/spinning_mutex.h` and `.cc` on Linux.
Every access of `state_` is one step of a thread; `Release` is called by a thread
that holds the mutex, the other calls by any thread that is not in a call. -/

namespace Equilibrium.SpinningMutex

open Library.Interleaving
open Function (update update_self update_of_ne)

def kUnlocked : Int := 0
def kLockedUncontended : Int := 1
def kLockedContended : Int := 2

def kSpinCount : ℕ := 64
def kMaxBackoff : ℕ := 16

/-- The function that called `Try`; the spin loop with its `tries` and `backoff`. -/
inductive Caller where
  | user
  | acquire
  | spin (tries backoff : ℕ)
  deriving DecidableEq

/-- The next access of a thread. `woken` records that a `FutexWake` ended the sleep. -/
inductive Pc where
  | outside
  | tryLoad (caller : Caller)
  | tryCas (caller : Caller)
  | exchange (woken : Bool)
  | futexWait
  | asleep
  | futexWake
  deriving DecidableEq

structure State (Thread : Type) where
  state : Int
  pc : Thread → Pc
  holds : Thread → Bool

inductive Act (Thread : Type) where
  | acquire (t : Thread)
  | tryLock (t : Thread)
  | release (t : Thread)
  /-- The next access; `fails` is a spurious failure of the weak exchange. -/
  | access (t : Thread) (fails : Bool)
  | wake (t : Thread) (sleeper : Option Thread)
  | spuriousReturn (t : Thread)

/-- Where `Try` returns `false` to: the caller, or the spin loop of
`AcquireSpinThenBlock` and then `LockSlow`. -/
def tryFailed : Caller → Pc
  | .user => .outside
  | .acquire => .tryLoad (.spin 0 1)
  | .spin tries backoff =>
    if tries + backoff < kSpinCount then
      .tryLoad (.spin (tries + backoff) (min kMaxBackoff (backoff * 2)))
    else .exchange false

variable {Thread : Type} [DecidableEq Thread]

/-- Thread `t` goes on at `p` and leaves `v` in `state_`. -/
def State.move (s : State Thread) (t : Thread) (p : Pc) (v : Int) : State Thread :=
  { s with state := v, pc := update s.pc t p }

/-- Thread `t` returns as the holder or as one that no longer is. -/
def State.own (s : State Thread) (t : Thread) (b : Bool) : State Thread :=
  { s with holds := update s.holds t b }

@[simp] theorem State.move_pc (s : State Thread) (t : Thread) (p : Pc) (v : Int) :
    (s.move t p v).pc = update s.pc t p := rfl

@[simp] theorem State.own_holds (s : State Thread) (t : Thread) (b : Bool) :
    (s.own t b).holds = update s.holds t b := rfl

def access (s : State Thread) (t : Thread) (fails : Bool) : Option (State Thread) :=
  match s.pc t with
  | .tryLoad c => some (s.move t (if s.state = kUnlocked then .tryCas c else tryFailed c) s.state)
  | .tryCas c =>
    if s.state = kUnlocked ∧ fails = false then
      some ((s.move t .outside kLockedUncontended).own t true)
    else some (s.move t (tryFailed c) s.state)
  | .exchange _ =>
    if s.state = kUnlocked then some ((s.move t .outside kLockedContended).own t true)
    else some (s.move t .futexWait kLockedContended)
  | .futexWait =>
    some (s.move t (if s.state = kLockedContended then .asleep else .exchange false) s.state)
  | _ => none

def step [Fintype Thread] (s : State Thread) : Act Thread → Option (State Thread)
  | .acquire t => if s.pc t = .outside then some (s.move t (.tryLoad .acquire) s.state) else none
  | .tryLock t => if s.pc t = .outside then some (s.move t (.tryLoad .user) s.state) else none
  | .release t =>
    if s.pc t = .outside ∧ s.holds t = true then
      some ((s.move t (if s.state = kLockedContended then .futexWake else .outside) kUnlocked).own
        t false)
    else none
  | .access t fails => access s t fails
  | .wake t (some u) =>
    if s.pc t = .futexWake ∧ s.pc u = .asleep then
      some ((s.move u (.exchange true) s.state).move t .outside s.state)
    else none
  | .wake t none =>
    if s.pc t = .futexWake ∧ ∀ u, s.pc u ≠ .asleep then some (s.move t .outside s.state) else none
  | .spuriousReturn t => if s.pc t = .asleep then some (s.move t (.exchange false) s.state) else none

def machine (Thread : Type) [DecidableEq Thread] [Fintype Thread] :
    Machine (State Thread) (Act Thread) where
  init := { state := kUnlocked, pc := fun _ => .outside, holds := fun _ => false }
  step := step

/-! Mutual exclusion. -/

structure Exclusive (s : State Thread) : Prop where
  locked : ∀ t, s.holds t = true → s.state ≠ kUnlocked
  unique : ∀ t u, s.holds t = true → s.holds u = true → t = u

variable {s : State Thread} {t : Thread} {p : Pc} {v : Int}

theorem Exclusive.move {s : State Thread} (h : Exclusive s) {t : Thread} {p : Pc} {v : Int}
    (hv : v = kUnlocked → s.state = kUnlocked) : Exclusive (s.move t p v) :=
  ⟨fun u hu hv' => h.locked u hu (hv hv'), h.unique⟩

theorem Exclusive.take (h : Exclusive s) (hfree : s.state = kUnlocked) (hv : v ≠ kUnlocked) :
    Exclusive ((s.move t p v).own t true) := by
  have hself : ∀ u, ((s.move t p v).own t true).holds u = true → u = t := by
    intro u hu
    by_contra hne
    rw [State.own_holds, update_of_ne hne] at hu
    exact h.locked u hu hfree
  exact ⟨fun _ _ => hv, fun u w hu hw => (hself u hu).trans (hself w hw).symm⟩

theorem Exclusive.drop {s : State Thread} (h : Exclusive s) {t : Thread} (ht : s.holds t = true)
    {p : Pc} {v : Int} : Exclusive ((s.move t p v).own t false) := by
  have hnone : ∀ u, ((s.move t p v).own t false).holds u ≠ true := by
    intro u hu
    by_cases hut : u = t
    · subst hut
      cases (update_self _ _ _).symm.trans hu
    · rw [State.own_holds, update_of_ne hut] at hu
      exact hut (h.unique u t hu ht)
  exact ⟨fun u hu => absurd hu (hnone u), fun u _ hu => absurd hu (hnone u)⟩

theorem exclusive_access {s s' : State Thread} (h : Exclusive s) {t : Thread} {fails : Bool}
    (hs : access s t fails = some s') : Exclusive s' := by
  unfold access at hs
  split at hs
  · exact Option.some.inj hs ▸ h.move id
  · split_ifs at hs with hfree
    · exact Option.some.inj hs ▸ h.take hfree.1 (by decide)
    · exact Option.some.inj hs ▸ h.move id
  · split_ifs at hs with hfree
    · exact Option.some.inj hs ▸ h.take hfree (by decide)
    · exact Option.some.inj hs ▸ h.move nofun
  · exact Option.some.inj hs ▸ h.move id
  · exact nomatch hs

theorem exclusive_step [Fintype Thread] {s s' : State Thread} {a : Act Thread} (h : Exclusive s)
    (hs : step s a = some s') : Exclusive s' := by
  cases a with
  | acquire t =>
    obtain ⟨_, rfl⟩ := by simpa [step] using hs
    exact h.move id
  | tryLock t =>
    obtain ⟨_, rfl⟩ := by simpa [step] using hs
    exact h.move id
  | release t =>
    simp only [step, Option.ite_none_right_eq_some, Option.some.injEq] at hs
    obtain ⟨⟨-, ht⟩, rfl⟩ := hs
    exact h.drop ht
  | access t fails => exact exclusive_access h hs
  | wake t sleeper =>
    cases sleeper with
    | none =>
      obtain ⟨_, rfl⟩ := by simpa [step] using hs
      exact h.move id
    | some u =>
      obtain ⟨_, rfl⟩ := by simpa [step] using hs
      exact (h.move id).move id
  | spuriousReturn t =>
    obtain ⟨_, rfl⟩ := by simpa [step] using hs
    exact h.move id

/-! No sleeper is stranded. -/

/-- A thread that will wake a sleeper or set `kLockedContended` again. -/
def Pc.Rescues (p : Pc) : Prop := p = .futexWake ∨ p = .exchange true

def Rescued (s : State Thread) : Prop :=
  ∀ t, s.pc t = .asleep → s.state = kLockedContended ∨ ∃ u, (s.pc u).Rescues

theorem tryFailed_ne_asleep (c : Caller) : tryFailed c ≠ .asleep := by
  cases c with
  | user => decide
  | acquire => decide
  | spin tries backoff =>
    simp only [tryFailed]
    split_ifs <;> exact nofun

theorem Rescued.move (h : Rescued s) (hsleep : p = .asleep → v = kLockedContended)
    (hrescue : (s.pc t).Rescues → v = kLockedContended)
    (hcontended : s.state = kLockedContended → v = kLockedContended ∨ p.Rescues) :
    Rescued (s.move t p v) := by
  intro u hu
  by_cases hut : u = t
  · subst hut
    rw [State.move_pc, update_self] at hu
    exact .inl (hsleep hu)
  · rw [State.move_pc, update_of_ne hut] at hu
    rcases h u hu with hs | ⟨w, hw⟩
    · refine (hcontended hs).imp id fun hp => ⟨t, ?_⟩
      rwa [State.move_pc, update_self]
    · by_cases hwt : w = t
      · subst hwt
        exact .inl (hrescue hw)
      · refine .inr ⟨w, ?_⟩
        rwa [State.move_pc, update_of_ne hwt]

theorem rescued_access {s s' : State Thread} (h : Rescued s) {t : Thread} {fails : Bool}
    (hs : access s t fails = some s') : Rescued s' := by
  cases hpc : s.pc t with
  | tryLoad c =>
    cases by simpa [access, hpc] using hs
    refine h.move (fun hp => ?_) (by simp [hpc, Pc.Rescues]) .inl
    split_ifs at hp
    exact absurd hp (tryFailed_ne_asleep c)
  | tryCas c =>
    simp only [access, hpc] at hs
    split_ifs at hs with hfree <;> cases hs
    · exact h.move nofun (by simp [hpc, Pc.Rescues])
        fun hc => absurd (hfree.1.symm.trans hc) (by decide)
    · exact h.move (fun hp => absurd hp (tryFailed_ne_asleep c)) (by simp [hpc, Pc.Rescues]) .inl
  | exchange woken =>
    simp only [access, hpc] at hs
    split_ifs at hs <;> cases hs
    · exact h.move nofun (fun _ => rfl) fun _ => .inl rfl
    · exact h.move nofun (fun _ => rfl) fun _ => .inl rfl
  | futexWait =>
    cases by simpa [access, hpc] using hs
    refine h.move (fun hp => ?_) (by simp [hpc, Pc.Rescues]) .inl
    by_contra hne
    simp [hne] at hp
  | outside => simp [access, hpc] at hs
  | asleep => simp [access, hpc] at hs
  | futexWake => simp [access, hpc] at hs

theorem rescued_wake {u : Thread} (ht : s.pc t = .futexWake) (hu : s.pc u = .asleep) :
    Rescued ((s.move u (.exchange true) s.state).move t .outside s.state) := by
  have hne : u ≠ t := by
    rintro rfl
    cases ht.symm.trans hu
  refine fun _ _ => .inr ⟨u, .inr ?_⟩
  rw [State.move_pc, update_of_ne hne, State.move_pc, update_self]

theorem rescued_step [Fintype Thread] {s s' : State Thread} {a : Act Thread} (h : Rescued s)
    (hs : step s a = some s') : Rescued s' := by
  cases a with
  | acquire t =>
    obtain ⟨ht, rfl⟩ := by simpa [step] using hs
    exact h.move nofun (by simp [ht, Pc.Rescues]) .inl
  | tryLock t =>
    obtain ⟨ht, rfl⟩ := by simpa [step] using hs
    exact h.move nofun (by simp [ht, Pc.Rescues]) .inl
  | release t =>
    simp only [step, Option.ite_none_right_eq_some, Option.some.injEq] at hs
    obtain ⟨⟨ht, -⟩, rfl⟩ := hs
    refine h.move (fun hp => ?_) (by simp [ht, Pc.Rescues]) fun hc => .inr ?_
    · split_ifs at hp
    · rw [if_pos hc]
      exact .inl rfl
  | access t fails => exact rescued_access h hs
  | wake t sleeper =>
    cases sleeper with
    | none =>
      simp only [step, Option.ite_none_right_eq_some, Option.some.injEq] at hs
      obtain ⟨⟨-, hnone⟩, rfl⟩ := hs
      intro u hu
      by_cases hut : u = t
      · subst hut
        cases (update_self _ _ _).symm.trans hu
      · rw [State.move_pc, update_of_ne hut] at hu
        exact absurd hu (hnone u)
    | some u =>
      simp only [step, Option.ite_none_right_eq_some, Option.some.injEq] at hs
      obtain ⟨⟨ht, hu⟩, rfl⟩ := hs
      exact rescued_wake ht hu
  | spuriousReturn t =>
    obtain ⟨ht, rfl⟩ := by simpa [step] using hs
    exact h.move nofun (by simp [ht, Pc.Rescues]) .inl

/-- At most one thread holds the mutex, and no sleeper is stranded. -/
theorem exclusive_and_rescued (Thread : Type) [DecidableEq Thread] [Fintype Thread]
    {s : State Thread} (h : (machine Thread).Reachable s) :
    (∀ t u, s.holds t = true → s.holds u = true → t = u) ∧ ((∃ t, s.pc t = .asleep) →
        s.state = kLockedContended ∨ ∃ u, s.pc u = .futexWake ∨ s.pc u = .exchange true) := by
  have hexclusive : Exclusive s :=
    h.invariant ⟨fun _ h => (nomatch h), fun _ _ h => (nomatch h)⟩ fun _ _ _ => exclusive_step
  have hrescued : Rescued s := h.invariant (fun _ h => (nomatch h)) fun _ _ _ => rescued_step
  exact ⟨hexclusive.unique, fun ⟨t, ht⟩ => hrescued t ht⟩

/-- One thread takes the mutex, the other one spins and goes to sleep. -/
def contendedRun : List (Act Bool) :=
  [.acquire false, .access false false, .access false false, .acquire true] ++
    List.replicate 11 (.access true false)

theorem exclusive_and_rescued_contended : ∃ s : State Bool,
    (machine Bool).run (machine Bool).init contendedRun = some s ∧ s.pc true = .asleep ∧
      (s.state = kLockedContended ∨ ∃ u, s.pc u = .futexWake ∨ s.pc u = .exchange true) := by
  have hsleep : ((machine Bool).run (machine Bool).init contendedRun).map (fun s => s.pc true) =
      some .asleep := by decide
  obtain ⟨s, hs, hpc⟩ := Option.map_eq_some_iff.mp hsleep
  exact ⟨s, hs, hpc, (exclusive_and_rescued Bool (.run .init hs)).2 ⟨true, hpc⟩⟩

end Equilibrium.SpinningMutex
