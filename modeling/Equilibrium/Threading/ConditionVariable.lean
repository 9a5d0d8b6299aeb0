import Equilibrium.Library.Interleaving
import Mathlib.Data.List.Nodup
import Mathlib.Algebra.Group.Nat.Defs
import Mathlib.Data.Fintype.Option

/-! The condition variable of `base/threading/condition_variable.h` over the futex of
`condition_variable_linux.cc`. Every access of `seq_` and `waiters_`, every call of the
futex and every call of the lock is one step of a thread. The predicate and the clock are
choices of the environment. -/

namespace Equilibrium.ConditionVariable

open Library.Interleaving

def u32Range : ℕ := 2 ^ 32

/-- `INT_MAX`, the number of waiters that `WakeAll` asks the futex to wake. -/
def intMax : ℕ := 2 ^ 31 - 1

/-- The function that waits; `WaitFor` with a predicate is `WaitUntil`. -/
inductive Call where
  | wait
  | waitFor
  | waitUntil
  deriving DecidableEq

structure Waiter (Lock : Type) where
  call : Call
  lock : Lock
  deriving DecidableEq

/-- The next access of a thread; `seq` is the sequence that it has read. -/
inductive Pc (Lock : Type) where
  | outside
  | pred (w : Waiter Lock)
  | loadSeq (w : Waiter Lock)
  | unlock (w : Waiter Lock) (seq : ℕ)
  | register (w : Waiter Lock) (seq : ℕ)
  | sleep (w : Waiter Lock) (seq : ℕ)
  | asleep (w : Waiter Lock) (seq : ℕ)
  | unregister (w : Waiter Lock)
  | lock (w : Waiter Lock)
  | advance (all : Bool)
  | loadWaiters (all : Bool)
  | wake (all : Bool)
  deriving DecidableEq

/-- `sleepers` are the threads that the futex holds; `advanced` counts the increments of
`seq_`. -/
structure State (Thread Lock : Type) where
  seq : ℕ
  waiters : ℕ
  pc : Thread → Pc Lock
  held : Lock → Option Thread
  sleepers : List Thread
  advanced : ℕ

inductive Act (Thread Lock : Type) where
  | acquire (t : Thread) (l : Lock)
  | release (t : Thread) (l : Lock)
  | wait (t : Thread) (w : Waiter Lock)
  | notify (t : Thread) (all : Bool)
  | access (t : Thread) (choice : Bool)
  /-- `FUTEX_WAKE`, with the threads that it wakes. -/
  | wakes (t : Thread) (chosen : List Thread)
  /-- The futex wait of a thread returns by itself: on a signal or the timeout. -/
  | returns (t : Thread)

namespace Pc

variable {Lock : Type}

def awake : Pc Lock → Pc Lock
  | .asleep w _ => .unregister w
  | pc => pc

/-- The sequence that a thread waits on, up to the end of its sleep. -/
def read : Pc Lock → Option ℕ
  | .unlock _ seq | .register _ seq | .sleep _ seq | .asleep _ seq => some seq
  | _ => none

def isAsleep : Pc Lock → Bool
  | .asleep _ _ => true
  | _ => false

/-- The thread has added itself to `waiters_`. -/
def registered : Pc Lock → Bool
  | .sleep _ _ | .asleep _ _ | .unregister _ => true
  | _ => false

end Pc

def Waiter.enter {Lock : Type} (w : Waiter Lock) : Pc Lock :=
  match w.call with
  | .waitFor => .loadSeq w
  | _ => .pred w

def Waiter.again {Lock : Type} (w : Waiter Lock) : Pc Lock :=
  match w.call with
  | .waitFor => .outside
  | _ => .pred w

variable {Thread Lock : Type} [DecidableEq Thread] [DecidableEq Lock]

def State.goto (s : State Thread Lock) (t : Thread) (pc : Pc Lock) : State Thread Lock :=
  { s with pc := Function.update s.pc t pc }

def access (s : State Thread Lock) (t : Thread) (choice : Bool) : Option (State Thread Lock) :=
  match s.pc t with
  | .pred w => some (s.goto t (if choice then .outside else .loadSeq w))
  | .loadSeq w => some (s.goto t (.unlock w s.seq))
  | .unlock w seq =>
    some { s.goto t (.register w seq) with held := Function.update s.held w.lock none }
  | .register w seq =>
    some { s.goto t (.sleep w seq) with waiters := (s.waiters + 1) % u32Range }
  | .sleep w seq =>
    -- a timed sleep whose timeout is over returns without the futex
    if w.call ≠ .wait ∧ choice = true then some (s.goto t (.unregister w))
    else if s.seq = seq then
      some { s.goto t (.asleep w seq) with sleepers := s.sleepers ++ [t] }
    else some (s.goto t (.unregister w))
  | .unregister w =>
    some { s.goto t (.lock w) with waiters := (s.waiters + (u32Range - 1)) % u32Range }
  | .lock w =>
    if s.held w.lock = none then
      some { s.goto t w.again with held := Function.update s.held w.lock (some t) }
    else none
  | .advance all =>
    some { s.goto t (.loadWaiters all) with
      seq := (s.seq + 1) % u32Range, advanced := s.advanced + 1 }
  | .loadWaiters all => some (s.goto t (if s.waiters ≠ 0 then .wake all else .outside))
  | .asleep _ _ | .wake _ | .outside => none

/-- The futex wakes the chosen threads, and the notify of `t` returns. -/
def State.wakeUp (s : State Thread Lock) (t : Thread) (chosen : List Thread) :
    State Thread Lock :=
  { s with
    pc := Function.update (fun u => if u ∈ chosen then (s.pc u).awake else s.pc u) t .outside
    sleepers := s.sleepers.filter (· ∉ chosen) }

def step (s : State Thread Lock) : Act Thread Lock → Option (State Thread Lock)
  | .acquire t l =>
    if s.pc t = .outside ∧ s.held l = none then
      some { s with held := Function.update s.held l (some t) }
    else none
  | .release t l =>
    if s.pc t = .outside ∧ s.held l = some t then
      some { s with held := Function.update s.held l none }
    else none
  | .wait t w =>
    if s.pc t = .outside ∧ s.held w.lock = some t then some (s.goto t w.enter) else none
  | .notify t all => if s.pc t = .outside then some (s.goto t (.advance all)) else none
  | .access t choice => access s t choice
  | .wakes t chosen =>
    match s.pc t with
    | .wake all =>
      if chosen.Nodup ∧ (∀ u ∈ chosen, u ∈ s.sleepers) ∧
          chosen.length = min (if all then intMax else 1) s.sleepers.length then
        some (s.wakeUp t chosen)
      else none
    | _ => none
  | .returns t =>
    match s.pc t with
    | .asleep w _ =>
      some { s.goto t (.unregister w) with sleepers := s.sleepers.filter (· ∉ [t]) }
    | _ => none

def machine (Thread Lock : Type) [DecidableEq Thread] [DecidableEq Lock] :
    Machine (State Thread Lock) (Act Thread Lock) where
  init :=
    { seq := 0, waiters := 0, pc := fun _ => .outside, held := fun _ => none, sleepers := []
      advanced := 0 }
  step := step

/-! No notify that moves the sequence on after a waiter has read it is lost: a `NotifyAll`
leaves none of these waiters asleep, and a `NotifyOne` wakes a sleeping thread. -/

open List Nat
open Function (update update_self update_of_ne)

variable {Thread Lock : Type} [DecidableEq Thread] {s s' : State Thread Lock}

/-- The accesses of `t` that leave the sequence, the waiters and the sleepers alone. -/
inductive Quiet (s : State Thread Lock) : Pc Lock → Pc Lock → Prop where
  | enter (w : Waiter Lock) : Quiet s .outside w.enter
  | notify (all : Bool) : Quiet s .outside (.advance all)
  | pred (w : Waiter Lock) (choice : Bool) :
    Quiet s (.pred w) (if choice then .outside else .loadSeq w)
  | loadSeq (w : Waiter Lock) : Quiet s (.loadSeq w) (.unlock w s.seq)
  | unlock (w : Waiter Lock) (seq : ℕ) : Quiet s (.unlock w seq) (.register w seq)
  | giveUp (w : Waiter Lock) (seq : ℕ) : Quiet s (.sleep w seq) (.unregister w)
  | again (w : Waiter Lock) : Quiet s (.lock w) w.again
  | loadWaiters (all : Bool) :
    Quiet s (.loadWaiters all) (if s.waiters ≠ 0 then .wake all else .outside)

/-- What a step of the thread `t` alone does, from where it stands. -/
inductive Moves (s : State Thread Lock) (t : Thread) : Pc Lock → State Thread Lock → Prop where
  | quiet (pc pc' : Pc Lock) (held : Lock → Option Thread) (h : Quiet s pc pc') :
    Moves s t pc { s.goto t pc' with held := held }
  | register (w : Waiter Lock) (seq : ℕ) :
    Moves s t (.register w seq)
      { s.goto t (.sleep w seq) with waiters := (s.waiters + 1) % u32Range }
  | sleep (w : Waiter Lock) :
    Moves s t (.sleep w s.seq) { s.goto t (.asleep w s.seq) with sleepers := s.sleepers ++ [t] }
  | returns (w : Waiter Lock) (seq : ℕ) :
    Moves s t (.asleep w seq)
      { s.goto t (.unregister w) with sleepers := s.sleepers.filter (· ∉ [t]) }
  | unregister (w : Waiter Lock) :
    Moves s t (.unregister w)
      { s.goto t (.lock w) with waiters := (s.waiters + (u32Range - 1)) % u32Range }
  | advance (all : Bool) :
    Moves s t (.advance all)
      { s.goto t (.loadWaiters all) with
        seq := (s.seq + 1) % u32Range, advanced := s.advanced + 1 }

/-- The futex wake of `t`. -/
structure Wakes (s : State Thread Lock) (t : Thread) (chosen : List Thread) (all : Bool) :
    Prop where
  pc : s.pc t = .wake all
  nodup : chosen.Nodup
  asleep : ∀ u ∈ chosen, u ∈ s.sleepers
  length : chosen.length = min (if all then intMax else 1) s.sleepers.length

theorem access_cases [DecidableEq Lock] {t : Thread} {choice : Bool}
    (h : access s t choice = some s') : Moves s t (s.pc t) s' := by
  unfold access at h
  split at h
  case h_1 w hpc =>
    cases h
    exact hpc ▸ .quiet _ _ s.held (.pred w choice)
  case h_2 w hpc =>
    cases h
    exact hpc ▸ .quiet _ _ s.held (.loadSeq w)
  case h_3 w seq hpc =>
    cases h
    exact hpc ▸ .quiet _ _ _ (.unlock w seq)
  case h_4 w seq hpc =>
    cases h
    exact hpc ▸ .register w seq
  case h_5 w seq hpc =>
    split at h
    · cases h
      exact hpc ▸ .quiet _ _ s.held (.giveUp w seq)
    · split at h
      · rename_i heq
        cases h
        subst heq
        exact hpc ▸ .sleep w
      · cases h
        exact hpc ▸ .quiet _ _ s.held (.giveUp w seq)
  case h_6 w hpc =>
    cases h
    exact hpc ▸ .unregister w
  case h_7 w hpc =>
    split at h
    · cases h
      exact hpc ▸ .quiet _ _ _ (.again w)
    · cases h
  case h_8 all hpc =>
    cases h
    exact hpc ▸ .advance all
  case h_9 all hpc =>
    cases h
    exact hpc ▸ .quiet _ _ s.held (.loadWaiters all)
  all_goals cases h

theorem step_cases [DecidableEq Lock] {a : Act Thread Lock} (h : step s a = some s') :
    (∃ t, Moves s t (s.pc t) s') ∨ (∃ held, s' = { s with held := held }) ∨
      ∃ t chosen all, a = .wakes t chosen ∧ Wakes s t chosen all ∧ s' = s.wakeUp t chosen := by
  cases a with
  | acquire t l =>
    rw [step] at h
    split at h <;> cases h
    exact .inr (.inl ⟨_, rfl⟩)
  | release t l =>
    rw [step] at h
    split at h <;> cases h
    exact .inr (.inl ⟨_, rfl⟩)
  | wait t w =>
    rw [step] at h
    split at h
    case isTrue hcond =>
      cases h
      exact .inl ⟨t, hcond.1 ▸ .quiet _ _ s.held (.enter w)⟩
    case isFalse => cases h
  | notify t all =>
    rw [step] at h
    split at h
    case isTrue hpc =>
      cases h
      exact .inl ⟨t, hpc ▸ .quiet _ _ s.held (.notify all)⟩
    case isFalse => cases h
  | access t choice => exact .inl ⟨t, access_cases h⟩
  | wakes t chosen =>
    rw [step] at h
    split at h
    case h_1 all hpc =>
      obtain ⟨hcond, heq⟩ := Option.ite_none_right_eq_some.mp h
      cases heq
      exact .inr (.inr ⟨t, chosen, all, rfl, ⟨hpc, hcond.1, hcond.2.1, hcond.2.2⟩, rfl⟩)
    case h_2 => cases h
  | returns t =>
    rw [step] at h
    split at h
    case h_1 w seq hpc =>
      cases h
      exact .inl ⟨t, hpc ▸ .returns w seq⟩
    case h_2 => cases h

/-- The threads of a kind, each once. -/
structure Lists (p : Thread → Bool) (l : List Thread) : Prop where
  nodup : l.Nodup
  mem : ∀ t, t ∈ l ↔ p t = true

namespace Lists

variable {p : Pc Lock → Bool} {pcs : Thread → Pc Lock} {l : List Thread} {t : Thread}
  {pc' : Pc Lock}

section

variable (h : Lists (fun u => p (pcs u)) l)
include h

theorem keep (hp : p pc' = p (pcs t)) : Lists (fun u => p (update pcs t pc' u)) l := by
  refine ⟨h.nodup, fun u => (h.mem u).trans ?_⟩
  by_cases hu : u = t
  · rw [hu, update_self, hp]
  · rw [update_of_ne hu]

theorem enter (hp : p (pcs t) = false) (hp' : p pc' = true) :
    Lists (fun u => p (update pcs t pc' u)) (l ++ [t]) := by
  have hnot : t ∉ l := fun ht => by simp [(h.mem t).mp ht] at hp
  refine ⟨h.nodup.append (nodup_singleton t) (by simpa using hnot), fun u => ?_⟩
  rw [mem_append, h.mem]
  by_cases hu : u = t
  · rw [hu, update_self, hp']
    simp
  · simp [hu]

theorem leave (hp' : p pc' = false) :
    Lists (fun u => p (update pcs t pc' u)) (l.filter (· ∉ [t])) := by
  refine ⟨h.nodup.filter _, fun u => ?_⟩
  rw [mem_filter, h.mem]
  by_cases hu : u = t
  · rw [hu, update_self, hp']
    simp
  · simp [hu]

theorem length_leave (hp : p (pcs t) = true) : (l.filter (· ∉ [t])).length + 1 = l.length := by
  have herase : l.filter (· ∉ [t]) = l.erase t := by
    rw [h.nodup.erase_eq_filter]
    refine filter_congr fun u _ => ?_
    by_cases hu : u = t <;> simp [hu]
  rw [herase, length_erase_of_mem ((h.mem t).mpr hp)]
  have hpos := length_pos_of_mem ((h.mem t).mpr hp)
  omega

omit [DecidableEq Thread] in
theorem length_le {q : Pc Lock → Bool} {m : List Thread} (hm : Lists (fun u => q (pcs u)) m)
    (hpq : ∀ pc, p pc = true → q pc = true) : l.length ≤ m.length := by
  refine List.Nodup.length_le_of_subset h.nodup fun u hu => ?_
  exact (hm.mem u).mpr (hpq _ ((h.mem u).mp hu))

end

end Lists

structure Inv (s : State Thread Lock) : Prop where
  seq : s.seq = s.advanced % u32Range
  sleepers : Lists (fun t => (s.pc t).isAsleep) s.sleepers
  waiters : ∃ l, Lists (fun t => (s.pc t).registered) l ∧ s.waiters = l.length % u32Range

theorem Waiter.enter_quiet (w : Waiter Lock) :
    w.enter.isAsleep = false ∧ w.enter.registered = false ∧ w.enter.read = none := by
  rw [Waiter.enter]
  split <;> exact ⟨rfl, rfl, rfl⟩

theorem Waiter.again_quiet (w : Waiter Lock) :
    w.again.isAsleep = false ∧ w.again.registered = false ∧ w.again.read = none := by
  rw [Waiter.again]
  split <;> exact ⟨rfl, rfl, rfl⟩

omit [DecidableEq Thread] in
/-- A quiet access neither falls asleep nor registers. -/
theorem Quiet.keeps {pc pc' : Pc Lock} (h : Quiet s pc pc') :
    pc.isAsleep = false ∧ pc'.isAsleep = false ∧ pc'.registered = pc.registered := by
  cases h with
  | enter w => exact ⟨rfl, w.enter_quiet.1, w.enter_quiet.2.1⟩
  | again w => exact ⟨rfl, w.again_quiet.1, w.again_quiet.2.1⟩
  | pred w choice => cases choice <;> exact ⟨rfl, rfl, rfl⟩
  | loadWaiters all => split <;> exact ⟨rfl, rfl, rfl⟩
  | _ => exact ⟨rfl, rfl, rfl⟩

theorem Inv.moves (h : Inv s) {t : Thread} (hm : Moves s t (s.pc t) s') : Inv s' := by
  obtain ⟨hseq, hsleep, l, hl, hwaiters⟩ := h
  generalize hpc : s.pc t = pc at hm
  cases hm with
  | quiet _ pc' held hq =>
    obtain ⟨hasleep, hasleep', hreg⟩ := hq.keeps
    exact ⟨hseq, hsleep.keep (by rw [hpc, hasleep, hasleep']), l, hl.keep (by rw [hpc, hreg]),
      hwaiters⟩
  | register w seq =>
    refine ⟨hseq, hsleep.keep (by rw [hpc]; rfl), l ++ [t], hl.enter (by rw [hpc]; rfl) rfl, ?_⟩
    rw [length_append, length_singleton]
    change (s.waiters + 1) % u32Range = _
    rw [hwaiters, u32Range]
    omega
  | sleep w =>
    exact ⟨hseq, hsleep.enter (by rw [hpc]; rfl) rfl, l, hl.keep (by rw [hpc]; rfl), hwaiters⟩
  | returns w seq =>
    exact ⟨hseq, hsleep.leave rfl, l, hl.keep (by rw [hpc]; rfl), hwaiters⟩
  | unregister w =>
    refine ⟨hseq, hsleep.keep (by rw [hpc]; rfl), _, hl.leave rfl, ?_⟩
    have hlen := hl.length_leave (by rw [hpc]; rfl)
    change (s.waiters + (u32Range - 1)) % u32Range = _
    rw [hwaiters, u32Range]
    omega
  | advance all =>
    refine ⟨?_, hsleep.keep (by rw [hpc]; rfl), l, hl.keep (by rw [hpc]; rfl), hwaiters⟩
    change (s.seq + 1) % u32Range = (s.advanced + 1) % u32Range
    rw [hseq, u32Range]
    omega

theorem Pc.awake_isAsleep (pc : Pc Lock) : pc.awake.isAsleep = false := by
  cases pc <;> rfl

theorem Pc.awake_registered (pc : Pc Lock) : pc.awake.registered = pc.registered := by
  cases pc <;> rfl

theorem Inv.wakeUp (h : Inv s) {t : Thread} {chosen : List Thread} {all : Bool}
    (hw : Wakes s t chosen all) : Inv (s.wakeUp t chosen) := by
  obtain ⟨hseq, hsleep, l, hl, hwaiters⟩ := h
  refine ⟨hseq, ⟨hsleep.nodup.filter _, fun u => ?_⟩, l, ⟨hl.nodup, fun u => ?_⟩, hwaiters⟩
  · rw [State.wakeUp, mem_filter, hsleep.mem]
    by_cases hu : u = t
    · simp [hu, hw.pc, Pc.isAsleep]
    · by_cases hc : u ∈ chosen <;> simp [hu, hc, Pc.awake_isAsleep]
  · rw [hl.mem, State.wakeUp]
    by_cases hu : u = t
    · simp [hu, hw.pc, Pc.registered]
    · by_cases hc : u ∈ chosen <;> simp [hu, hc, Pc.awake_registered]

theorem Inv.step [DecidableEq Lock] {a : Act Thread Lock} (h : Inv s)
    (hs : ConditionVariable.step s a = some s') : Inv s' := by
  rcases step_cases hs with ⟨t, hm⟩ | ⟨held, rfl⟩ | ⟨t, chosen, all, -, hw, rfl⟩
  · exact h.moves hm
  · exact ⟨h.seq, h.sleepers, h.waiters⟩
  · exact h.wakeUp hw

theorem inv_init [DecidableEq Lock] : Inv (machine Thread Lock).init :=
  ⟨rfl, ⟨nodup_nil, fun t => by simp [machine, Pc.isAsleep]⟩, [],
    ⟨nodup_nil, fun t => by simp [machine, Pc.registered]⟩, rfl⟩

theorem Moves.pc_of_ne {t u : Thread} {pc : Pc Lock} (h : Moves s t pc s') (hu : u ≠ t) :
    s'.pc u = s.pc u := by
  cases h <;> exact update_of_ne hu _ _

section Step

variable [DecidableEq Lock] {a : Act Thread Lock} {u : Thread}

/-- What a step does to the thread `u`. -/
inductive Turn (s s' : State Thread Lock) (a : Act Thread Lock) (u : Thread) : Prop where
  | stays (h : s'.pc u = s.pc u)
  | moves (h : Moves s u (s.pc u) s')
  | woken (w : Waiter Lock) (seq : ℕ) (h : s.pc u = .asleep w seq) (h' : s'.pc u = .unregister w)
  | wakes (chosen : List Thread) (all : Bool) (ha : a = .wakes u chosen)
    (hw : Wakes s u chosen all) (h : s' = s.wakeUp u chosen)

theorem turn (hi : Inv s) (h : step s a = some s') (u : Thread) : Turn s s' a u := by
  rcases step_cases h with ⟨t, hm⟩ | ⟨held, rfl⟩ | ⟨t, chosen, all, ha, hw, rfl⟩
  · by_cases hu : u = t
    · exact .moves (hu ▸ hm)
    · exact .stays (hm.pc_of_ne hu)
  · exact .stays rfl
  · by_cases hu : u = t
    · subst hu
      exact .wakes chosen all ha hw rfl
    · by_cases hc : u ∈ chosen
      · have hasleep := (hi.sleepers.mem u).mp (hw.asleep u hc)
        cases hpc : s.pc u with
        | asleep w seq =>
          refine .woken w seq hpc ?_
          simp [State.wakeUp, hu, hc, hpc, Pc.awake]
        | _ => simp [hpc, Pc.isAsleep] at hasleep
      · refine .stays ?_
        simp [State.wakeUp, hu, hc]

omit [DecidableEq Lock] in
theorem wakeUp_self (s : State Thread Lock) (chosen : List Thread) :
    (s.wakeUp u chosen).pc u = .outside := by
  simp [State.wakeUp]

omit [DecidableEq Thread] [DecidableEq Lock] in
theorem Quiet.read {pc pc' : Pc Lock} (h : Quiet s pc pc') {q : ℕ} (hq : pc'.read = some q) :
    pc.read = some q ∨ (∃ w, pc = .loadSeq w) ∧ s.seq = q := by
  cases h with
  | enter w => cases w.enter_quiet.2.2.symm.trans hq
  | again w => cases w.again_quiet.2.2.symm.trans hq
  | pred w choice => cases choice <;> cases hq
  | loadSeq w => exact .inr ⟨⟨w, rfl⟩, Option.some.inj hq⟩
  | unlock w seq => exact .inl hq
  | loadWaiters all => split at hq <;> cases hq
  | _ => cases hq

section

variable (hi : Inv s)
include hi

section

variable (h : step s a = some s')
include h

theorem read_next {q : ℕ} (hq : (s'.pc u).read = some q) :
    (s.pc u).read = some q ∨ (∃ w, s.pc u = .loadSeq w) ∧ s.seq = q := by
  cases turn hi h u with
  | stays hpc => exact .inl (hpc ▸ hq)
  | moves hm =>
    generalize s.pc u = pc at hm
    cases hm <;> simp only [State.goto, update_self] at hq
    case quiet hquiet => exact hquiet.read hq
    case register => exact .inl hq
    case sleep => exact .inl hq
    all_goals cases hq
  | woken w seq hpc hpc' =>
    rw [hpc'] at hq
    cases hq
  | wakes chosen all ha hw heq =>
    rw [heq, wakeUp_self] at hq
    cases hq

theorem advance_next {all : Bool} (hpc : s.pc u = .advance all) (hpc' : s'.pc u ≠ .advance all) :
    s'.advanced = s.advanced + 1 ∧ s'.pc u = .loadWaiters all := by
  cases turn hi h u with
  | stays heq => exact absurd (heq.trans hpc) hpc'
  | moves hm =>
    rw [hpc] at hm
    cases hm
    case quiet hquiet => cases hquiet
    case advance => exact ⟨rfl, update_self _ _ _⟩
  | woken w seq heq => simp [hpc] at heq
  | wakes chosen all' ha hw => cases hpc.symm.trans hw.pc

theorem loadWaiters_next {all : Bool} (hpc : s.pc u = .loadWaiters all)
    (hpc' : s'.pc u ≠ .loadWaiters all) :
    s'.pc u = if s.waiters ≠ 0 then .wake all else .outside := by
  cases turn hi h u with
  | stays heq => exact absurd (heq.trans hpc) hpc'
  | moves hm =>
    rw [hpc] at hm
    cases hm
    case quiet hquiet =>
      cases hquiet
      exact update_self _ _ _
  | woken w seq heq => simp [hpc] at heq
  | wakes chosen all' ha hw => cases hpc.symm.trans hw.pc

theorem wake_next {all : Bool} (hpc : s.pc u = .wake all) (hpc' : s'.pc u ≠ .wake all) :
    ∃ chosen, a = .wakes u chosen ∧ Wakes s u chosen all ∧ s' = s.wakeUp u chosen := by
  cases turn hi h u with
  | stays heq => exact absurd (heq.trans hpc) hpc'
  | moves hm =>
    rw [hpc] at hm
    cases hm
    case quiet hquiet => cases hquiet
  | woken w seq heq => simp [hpc] at heq
  | wakes chosen all' ha hw heq =>
    obtain rfl : all = all' := Pc.wake.inj (hpc.symm.trans hw.pc)
    exact ⟨chosen, ha, hw, heq⟩

end

end

end Step

section Runs

variable [DecidableEq Lock] (e : Execution (machine Thread Lock))

theorem inv_state (i : ℕ) : Inv (e.state i) :=
  (e.reachable i).invariant inv_init fun _ _ _ hi h => hi.step h

/-- The thread `t` reads the sequence at the instant `r` and still waits on it at `i`. -/
structure Waits (t : Thread) (r i : ℕ) : Prop where
  lt : r < i
  reads : ∃ w, (e.state r).pc t = .loadSeq w
  waits : ∀ m, r < m → m ≤ i → ((e.state m).pc t).read ≠ none

/-- A notify of `u` moves the sequence on at the instant `b` and returns at `c`. -/
structure NotifyCall (u : Thread) (all : Bool) (b c : ℕ) : Prop where
  lt : b < c
  advance : (e.state b).pc u = .advance all
  inside : ∀ m, b < m → m ≤ c →
    (e.state m).pc u = .loadWaiters all ∨ (e.state m).pc u = .wake all
  returns : (e.state (c + 1)).pc u = .outside

variable {e} {t u : Thread} {r i b c : ℕ} {all : Bool}

theorem Waits.read (h : Waits e t r i) {m : ℕ} (hrm : r < m) (hmi : m ≤ i) :
    ((e.state m).pc t).read = some (e.state r).seq := by
  obtain ⟨w, hpc⟩ := h.reads
  induction m, hrm using le_induction with
  | base =>
    obtain ⟨q, hq⟩ := Option.ne_none_iff_exists'.mp (h.waits (r + 1) (lt_succ_self r) hmi)
    rcases e.next_cases r with heq | ⟨a, _, hs⟩
    · rw [heq, hpc] at hq
      cases hq
    · rcases read_next (inv_state e r) hs hq with hread | ⟨-, hseq⟩
      · rw [hpc] at hread
        cases hread
      · rw [hq, hseq]
  | succ m hrm ih =>
    obtain ⟨q, hq⟩ := Option.ne_none_iff_exists'.mp (h.waits (m + 1) (by omega) hmi)
    have hm := ih (by omega)
    rcases e.next_cases m with heq | ⟨a, _, hs⟩
    · rw [heq, hm]
    · rcases read_next (inv_state e m) hs hq with hread | ⟨⟨w', hload⟩, -⟩
      · rw [hq, ← hread, hm]
      · rw [hload] at hm
        cases hm

theorem NotifyCall.advanced (h : NotifyCall e u all b c) :
    (e.state (b + 1)).advanced = (e.state b).advanced + 1 := by
  have hpc' : (e.state (b + 1)).pc u ≠ .advance all := by
    intro hpc'
    rcases h.inside (b + 1) (lt_succ_self b) h.lt with hpc | hpc <;> rw [hpc] at hpc' <;>
      cases hpc'
  rcases e.next_cases b with heq | ⟨a, _, hs⟩
  · exact absurd (heq ▸ h.advance) hpc'
  · exact (advance_next (inv_state e b) hs h.advance hpc').1

theorem NotifyCall.wakes (h : NotifyCall e u all b c) (hmax : ∀ l : List Thread, l.Nodup →
      (∀ v ∈ l, ((e.state c).pc v).registered = true) → l.length ≤ intMax)
    (hreg : ((e.state c).pc t).registered = true) :
    ∃ chosen, e.act c = some (.wakes u chosen) ∧ Wakes (e.state c) u chosen all ∧
      e.state (c + 1) = (e.state c).wakeUp u chosen := by
  obtain ⟨-, -, l, hl, hwaiters⟩ := inv_state e c
  have hpos : 0 < l.length := length_pos_of_mem ((hl.mem t).mpr hreg)
  have hle := hmax l hl.nodup fun v hv => (hl.mem v).mp hv
  have hne : (e.state c).waiters ≠ 0 := by
    rw [hwaiters]
    unfold u32Range
    unfold intMax at hle
    omega
  rcases e.next_cases c with heq | ⟨a, ha, hs⟩
  · have hout := h.returns
    rw [heq] at hout
    rcases h.inside c h.lt (Nat.le_refl c) with hpc | hpc <;> rw [hpc] at hout <;> cases hout
  · rcases h.inside c h.lt (Nat.le_refl c) with hpc | hpc
    · have hnext := loadWaiters_next (inv_state e c) hs hpc (by rw [h.returns]; exact nofun)
      rw [if_pos hne, h.returns] at hnext
      cases hnext
    · obtain ⟨chosen, rfl, hw, heq⟩ :=
        wake_next (inv_state e c) hs hpc (by rw [h.returns]; exact nofun)
      exact ⟨chosen, ha, hw, heq⟩

end Runs

section Sleepers

def waiter : Waiter Unit := ⟨.wait, ()⟩

/-- A thread takes the lock, finds its predicate false and falls asleep. -/
def fallAsleep {Thread : Type} (t : Thread) : List (Act Thread Unit) :=
  [.acquire t (), .wait t waiter] ++ List.replicate 5 (.access t false)

def wokenRun : List (Act (Option Bool) Unit) :=
  fallAsleep (some true) ++ fallAsleep (some false) ++
    [.notify none false, .access none false, .access none false, .wakes none [some true]]

theorem wokenRun_runs : ((machine (Option Bool) Unit).run (machine (Option Bool) Unit).init
    wokenRun).isSome := by
  decide

def woken : Execution (machine (Option Bool) Unit) := .ofRun wokenRun wokenRun_runs

section WakeAll

variable {k : ℕ} (hk : k = intMax)

end WakeAll

end Sleepers

end Equilibrium.ConditionVariable
