import Equilibrium.Library.Interleaving
import Equilibrium.Memory.AllocationSize
import Mathlib.Data.List.Range
import Mathlib.Data.List.Nodup

/-! The thread pool of `base/threading/thread_pool.h`. Every section under `queueMutex` or
`workersMutex` and every access of `stop` and `activeWorkers` is one step. Whether a thread can
be created is a choice of the environment. -/

namespace Equilibrium.ThreadPool

open AllocationSize Library.Interleaving

/-- What a pool is made with. -/
structure Bounds where
  minThreads : ℕ
  maxThreads : ℕ
  min_le_max : minThreads ≤ maxThreads
  max_lt : maxThreads < 2 ^ 64

/-- What the worker of a `Thread` does next. A task is known by its number among the enqueued
ones; `depth` is what an `enqueue` that it is in has read. -/
inductive Worker where
  /-- No thread could be created. -/
  | none
  | loop
  | take
  | run (task : ℕ) (depth : Option ℕ)
  | leave
  | left
  deriving DecidableEq, Repr

/-- How far the life of the pool has come; the destructor waits until it has loaded a zero from
`activeWorkers`. -/
inductive Phase where
  | raw
  | alive
  | waiting
  | waited
  | destroyed
  deriving DecidableEq, Repr

/-- `depth` is that of the threads which are no workers and in an `enqueue`; `enqueued` counts
the tasks, and `executed` has those that were run to their end. -/
structure State (κ : Type) where
  phase : Phase
  stop : Bool
  activeWorkers : ℕ
  taskQueue : List ℕ
  workers : List Worker
  depth : κ → Option ℕ
  enqueued : ℕ
  executed : List ℕ

variable {κ : Type}

/-- A thread that calls `enqueue`: another one, or the worker of a task. -/
inductive Caller (κ : Type) where
  | outside (k : κ)
  | task (i : ℕ)
  deriving DecidableEq

def Caller.isOutside : Caller κ → Bool
  | .outside _ => true
  | .task _ => false

inductive Act (κ : Type) where
  | construct (created : ℕ → Bool)
  /-- The section of `enqueue` under `queueMutex`. -/
  | push (c : Caller κ)
  /-- Its section under `workersMutex`. -/
  | grow (c : Caller κ) (created : ℕ → Bool)
  | loadStop (i : ℕ)
  /-- The section of a worker under `queueMutex`. -/
  | take (i : ℕ)
  | finish (i : ℕ)
  | leave (i : ℕ)
  | storeStop
  | loadActive
  | deleteWorkers

namespace State

def init : State κ := ⟨.raw, false, 0, [], [], fun _ => none, 0, []⟩

/-- Where the calls of a caller are; a worker makes them from its task only. -/
def depthOf (s : State κ) : Caller κ → Option (Option ℕ)
  | .outside k => some (s.depth k)
  | .task i =>
    match s.workers[i]? with
    | some (.run _ depth) => some depth
    | _ => none

def setDepth [DecidableEq κ] (s : State κ) (c : Caller κ) (depth : Option ℕ) : State κ :=
  match c with
  | .outside k => { s with depth := Function.update s.depth k depth }
  | .task i =>
    match s.workers[i]? with
    | some (.run task _) => { s with workers := s.workers.set i (.run task depth) }
    | _ => s

def setWorker (s : State κ) (i : ℕ) (w : Worker) : State κ :=
  { s with workers := s.workers.set i w }

def isOpen (s : State κ) : Bool := s.phase != .raw && s.phase != .destroyed

/-- The loop of `scaleUp`, given its number of turns. -/
def scaleUpLoop (created : ℕ → Bool) : ℕ → State κ → State κ
  | 0, s => s
  | turns + 1, s =>
    scaleUpLoop created turns
      { s with
        activeWorkers := wrapAdd s.activeWorkers 1
        workers := s.workers ++ [if created s.workers.length then .loop else .none] }

def scaleUp (created : ℕ → Bool) (s : State κ) (target : ℕ) : State κ :=
  scaleUpLoop created (target - s.workers.length) s

def pushTask [DecidableEq κ] (s : State κ) (c : Caller κ) : State κ :=
  { s with
    taskQueue := s.taskQueue ++ [s.enqueued]
    enqueued := s.enqueued + 1 }.setDepth c (some (s.taskQueue.length + 1))

/-- The queue outpaces the workers, and there may be more of them. -/
def outpaced (b : Bounds) (s : State κ) (depth : ℕ) : Bool :=
  s.workers.length < depth && s.workers.length < b.maxThreads

def growWorkers [DecidableEq κ] (b : Bounds) (s : State κ) (c : Caller κ) (created : ℕ → Bool)
    (depth : ℕ) : State κ :=
  let s := s.setDepth c none
  if s.outpaced b depth then s.scaleUp created (s.workers.length + 1) else s

def takeTask (s : State κ) (i : ℕ) : State κ :=
  match s.taskQueue.getLast? with
  | some task => { s with taskQueue := s.taskQueue.dropLast }.setWorker i (.run task none)
  | none => s.setWorker i .loop

end State

open State

def step [DecidableEq κ] (b : Bounds) (s : State κ) : Act κ → Option (State κ)
  | .construct created =>
    if s.phase = .raw then some { s.scaleUp created b.minThreads with phase := .alive } else none
  | .push c => if s.isOpen ∧ s.depthOf c = some none then some (s.pushTask c) else none
  | .grow c created =>
    match s.depthOf c with
    | some (some depth) => if s.isOpen then some (s.growWorkers b c created depth) else none
    | _ => none
  | .loadStop i =>
    if s.workers[i]? = some .loop then
      some (s.setWorker i (if s.stop then .leave else .take))
    else none
  | .take i => if s.workers[i]? = some .take then some (s.takeTask i) else none
  | .finish i =>
    match s.workers[i]? with
    | some (.run task none) => some ({ s with executed := s.executed ++ [task] }.setWorker i .loop)
    | _ => none
  | .leave i =>
    if s.workers[i]? = some .leave then
      some ({ s with activeWorkers := wrapSub s.activeWorkers 1 }.setWorker i .left)
    else none
  | .storeStop =>
    if s.phase = .alive then some { s with phase := .waiting, stop := true } else none
  | .loadActive =>
    if s.phase = .waiting then
      some { s with phase := if s.activeWorkers = 0 then .waited else .waiting }
    else none
  | .deleteWorkers =>
    if s.phase = .waited then some { s with phase := .destroyed, workers := [] } else none

def machine (κ : Type) [DecidableEq κ] (b : Bounds) : Machine (State κ) (Act κ) := ⟨init, step b⟩

section Accounts

namespace Worker

def inLoop : Worker → Bool
  | .none | .left => false
  | _ => true

def held : Worker → Option ℕ
  | .run task _ => some task
  | _ => Option.none

end Worker

/-- The tasks and the workers are accounted for: the enqueued tasks are shared out among the
executed, the pending and the held ones, which are all different. -/
structure Accounted (b : Bounds) (s : State κ) : Prop where
  once : s.executed.Nodup
  tasks : (s.executed ++ s.taskQueue ++ s.workers.filterMap Worker.held).Perm
    (List.range s.enqueued)
  least : s.isOpen → b.minThreads ≤ s.workers.length
  most : s.workers.length ≤ b.maxThreads
  active : s.activeWorkers = s.workers.countP Worker.inLoop

/-- Every thread that is asked for can be created, and no `enqueue` of a thread which is not a
worker has the pool grow once the destructor has seen no active workers. -/
def Meets (b : Bounds) (s : State κ) : Act κ → Prop
  | .construct created => ∀ i < b.minThreads, created i
  | .grow c created => Grows c created (s.depthOf c)
  | _ => True
where
  Grows (c : Caller κ) (created : ℕ → Bool) : Option (Option ℕ) → Prop
    | some (some depth) =>
      s.outpaced b depth → created s.workers.length ∧ (c.isOutside → s.phase ≠ .waited)
    | _ => True

instance decidableGrows (b : Bounds) (s : State κ) (c : Caller κ) (created : ℕ → Bool) :
    ∀ depth, Decidable (Meets.Grows b s c created depth)
  | some (some depth) => inferInstanceAs (Decidable (_ → _))
  | some none | none => isTrue trivial

instance decidableMeets (b : Bounds) (s : State κ) : ∀ a : Act κ, Decidable (Meets b s a)
  | .construct created => inferInstanceAs (Decidable (∀ i < b.minThreads, created i))
  | .grow c created => decidableGrows b s c created (s.depthOf c)
  | .push _ | .loadStop _ | .take _ | .finish _ | .leave _ | .storeStop | .loadActive
  | .deleteWorkers => isTrue trivial

end Accounts

/-! Runs of the thread pool: tasks and workers are accounted for, and the destructor deletes
workers that have left their loops. -/

open List Option

variable {κ : Type} {b : Bounds} {s : State κ}

/-- What every step keeps. -/
structure Inv (b : Bounds) (s : State κ) : Prop where
  tasks : (s.executed ++ s.taskQueue ++ s.workers.filterMap Worker.held).Perm
    (List.range s.enqueued)
  least : s.isOpen → b.minThreads ≤ s.workers.length
  most : s.workers.length ≤ b.maxThreads
  active : s.activeWorkers = s.workers.countP Worker.inLoop
  created : Worker.none ∉ s.workers
  waited : s.phase = .waited → s.activeWorkers = 0
  raw : s.phase = .raw → s.workers = []

theorem Inv.accounted (h : Inv b s) : Accounted b s where
  once := (nodup_append.mp (nodup_append.mp
    (h.tasks.nodup_iff.mpr nodup_range)).1).1
  tasks := h.tasks
  least := h.least
  most := h.most
  active := h.active

theorem inv_init : Inv b (init : State κ) where
  tasks := List.Perm.refl _
  least := fun h => absurd h Bool.false_ne_true
  most := Nat.zero_le _
  active := rfl
  created := not_mem_nil
  waited := fun _ => rfl
  raw := fun _ => rfl

theorem Inv.left_of_waited (h : Inv b s) (hphase : s.phase = .waited) :
    ∀ w ∈ s.workers, w = .left := by
  intro w hw
  have hzero : s.workers.countP Worker.inLoop = 0 := h.active ▸ h.waited hphase
  have hout := countP_eq_zero.mp hzero w hw
  cases w with
  | none => exact absurd hw h.created
  | left => rfl
  | loop => exact absurd rfl hout
  | take => exact absurd rfl hout
  | run task depth => exact absurd rfl hout
  | leave => exact absurd rfl hout

section Workers

variable {i : ℕ} {w w' : Worker}

theorem split_at (h : s.workers[i]? = some w) : ∃ front back, s.workers = front ++ w :: back ∧
    ∀ w', s.workers.set i w' = front ++ w' :: back := by
  obtain ⟨hlt, hget⟩ := List.getElem?_eq_some_iff.mp h
  have hlength : (s.workers.take i).length = i := length_take_of_le hlt.le
  have hsplit : s.workers = s.workers.take i ++ w :: s.workers.drop (i + 1) := by
    rw [← hget, ← drop_eq_getElem_cons hlt, take_append_drop]
  refine ⟨_, _, hsplit, fun w' => ?_⟩
  conv_lhs => rw [hsplit]
  rw [set_append_right _ _ hlength.le, hlength, Nat.sub_self, set_cons_zero]

theorem held_append (front back : List Worker) (w : Worker) :
    (front ++ w :: back).filterMap Worker.held =
      front.filterMap Worker.held ++ (w.held.toList ++ back.filterMap Worker.held) := by
  rw [filterMap_append]
  cases hheld : w.held with
  | none =>
    rw [filterMap_cons_none hheld]
    rfl
  | some task =>
    rw [filterMap_cons_some hheld]
    rfl

theorem tasks_perm (done front held back : List ℕ) :
    (done ++ (front ++ (held ++ back))).Perm (done ++ held ++ (front ++ back)) := by
  rw [append_assoc done]
  exact (perm_append_comm_assoc front held back).append_left done

theorem Inv.setWorker (h : Inv b s) (hw : s.workers[i]? = some w) {t : State κ}
    (hworkers : t.workers = s.workers.set i w') (hphase : t.phase = s.phase)
    (henqueued : t.enqueued = s.enqueued)
    (htasks : (t.executed ++ t.taskQueue ++ w'.held.toList).Perm
      (s.executed ++ s.taskQueue ++ w.held.toList))
    (hloop : w.inLoop) (hcreated : w' ≠ .none)
    (hactive : t.activeWorkers + 1 = s.activeWorkers + w'.inLoop.toNat) : Inv b t := by
  obtain ⟨front, back, hsplit, hset⟩ := split_at hw
  have hkept : t.workers = front ++ w' :: back := hworkers.trans (hset w')
  have hlength : t.workers.length = s.workers.length := by rw [hworkers, length_set]
  have hopen : t.isOpen = s.isOpen := by rw [State.isOpen, hphase, State.isOpen]
  refine ⟨?_, ?_, ?_, ?_, ?_, ?_, ?_⟩
  case refine_1 =>
    have hbefore := h.tasks
    rw [hsplit, held_append] at hbefore
    rw [hkept, held_append, henqueued]
    exact ((tasks_perm _ _ _ _).trans (htasks.append_right _)).trans
      ((tasks_perm _ _ _ _).symm.trans hbefore)
  case refine_2 => rw [hopen, hlength]; exact h.least
  case refine_3 => rw [hlength]; exact h.most
  case refine_4 =>
    have hbefore := h.active
    rw [hsplit, countP_append, countP_cons_of_pos hloop] at hbefore
    rw [hkept, countP_append, countP_cons]
    cases hout : w'.inLoop with
    | true =>
      rw [hout, Bool.toNat_true] at hactive
      rw [if_pos rfl]
      omega
    | false =>
      rw [hout, Bool.toNat_false] at hactive
      rw [if_neg Bool.false_ne_true]
      omega
  case refine_5 =>
    rw [hkept]
    have hbefore := h.created
    rw [hsplit] at hbefore
    intro hmem
    rcases mem_append.mp hmem with hfront | hrest
    · exact hbefore (mem_append_left _ hfront)
    · rcases mem_cons.mp hrest with heq | hback
      · exact hcreated heq.symm
      · exact hbefore (mem_append_right _ (mem_cons_of_mem _ hback))
  case refine_6 =>
    intro hwaited
    have hleft := h.left_of_waited (hphase ▸ hwaited) w (mem_of_getElem? hw)
    rw [hleft] at hloop
    cases hloop
  case refine_7 =>
    intro hraw
    rw [h.raw (hphase ▸ hraw)] at hw
    cases hw

end Workers

section Calls

theorem Inv.congr (h : Inv b s) {t : State κ} (hworkers : t.workers = s.workers)
    (hphase : t.phase = s.phase) (hactive : t.activeWorkers = s.activeWorkers)
    (htasks : (t.executed ++ t.taskQueue ++ s.workers.filterMap Worker.held).Perm
      (range t.enqueued)) : Inv b t where
  tasks := hworkers ▸ htasks
  least := by
    rw [hworkers, State.isOpen, hphase]
    exact h.least
  most := hworkers ▸ h.most
  active := by rw [hworkers, hactive, h.active]
  created := hworkers ▸ h.created
  waited := by
    rw [hphase, hactive]
    exact h.waited
  raw := by
    rw [hphase, hworkers]
    exact h.raw

theorem task_of_depthOf {i : ℕ} {depth : Option ℕ} (h : s.depthOf (.task i) = some depth) :
    ∃ task, s.workers[i]? = some (.run task depth) := by
  rw [depthOf] at h
  split at h
  case h_1 task depth' hworker => exact ⟨task, by rw [hworker, Option.some.inj h]⟩
  case h_2 => cases h

theorem Inv.setDepth [DecidableEq κ] (h : Inv b s) (c : Caller κ) (depth : Option ℕ) :
    Inv b (s.setDepth c depth) := by
  cases c with
  | outside k => exact h.congr rfl rfl rfl h.tasks
  | task i =>
    rw [State.setDepth]
    split
    case h_1 task depth' hworker =>
      exact h.setWorker hworker rfl rfl rfl (.refl _) rfl (by simp) rfl
    case h_2 => exact h

theorem length_setDepth [DecidableEq κ] (s : State κ) (c : Caller κ) (depth : Option ℕ) :
    (s.setDepth c depth).workers.length = s.workers.length := by
  cases c with
  | outside k => rfl
  | task i =>
    rw [State.setDepth]
    split
    case h_1 => exact length_set
    case h_2 => rfl

theorem phase_setDepth [DecidableEq κ] (s : State κ) (c : Caller κ) (depth : Option ℕ) :
    (s.setDepth c depth).phase = s.phase := by
  cases c with
  | outside k => rfl
  | task i =>
    rw [State.setDepth]
    split
    case h_1 => rfl
    case h_2 => rfl

theorem scaleUpLoop_eq {created : ℕ → Bool} (turns : ℕ)
    (hcreated : ∀ i, s.workers.length ≤ i → i < s.workers.length + turns → created i)
    (hactive : s.activeWorkers + turns < 2 ^ 64) : scaleUpLoop created turns s = { s with
        activeWorkers := s.activeWorkers + turns
        workers := s.workers ++ replicate turns .loop } := by
  induction turns generalizing s with
  | zero =>
    rw [replicate_zero, append_nil]
    rfl
  | succ turns ih =>
    rw [scaleUpLoop, hcreated _ le_rfl (by omega), if_pos rfl, wrapAdd_of_lt (by omega)]
    rw [ih]
    case hcreated =>
      intro i hle hlt
      rw [length_append, length_singleton] at hle hlt
      exact hcreated i (by omega) (by omega)
    case hactive => simp only; omega
    simp only [append_assoc, State.mk.injEq, true_and, and_true]
    exact ⟨by omega, by rw [replicate_succ, singleton_append]⟩

theorem Inv.scaleUp (h : Inv b s) (created : ℕ → Bool) (target : ℕ) {p : Phase}
    (hle : s.workers.length ≤ target) (hleast : b.minThreads ≤ target)
    (hmost : target ≤ b.maxThreads)
    (hcreated : ∀ i, s.workers.length ≤ i → i < target → created i) (hwaited : p ≠ .waited)
    (hraw : p ≠ .raw) : Inv b { s.scaleUp created target with phase := p } := by
  have hmax := b.max_lt
  have hcount : s.activeWorkers ≤ s.workers.length := h.active ▸ countP_le_length
  have hloop := scaleUpLoop_eq (target - s.workers.length)
    (fun i hlow hhigh => hcreated i hlow (by omega)) (by omega)
  have hlength : (s.workers ++ replicate (target - s.workers.length) Worker.loop).length =
      target := by
    rw [length_append, length_replicate, Nat.add_sub_cancel' hle]
  rw [State.scaleUp, hloop]
  refine ⟨?_, fun _ => ?_, ?_, ?_, ?_, fun heq => absurd heq hwaited, fun heq => absurd heq hraw⟩
  case refine_1 =>
    have hnone : (replicate (target - s.workers.length) Worker.loop).filterMap Worker.held =
        [] := filterMap_eq_nil_iff.mpr fun w hw => by rw [eq_of_mem_replicate hw]; rfl
    simp only [filterMap_append, hnone, append_nil]
    exact h.tasks
  case refine_2 => exact hleast.trans hlength.ge
  case refine_3 => exact hlength.le.trans hmost
  case refine_4 =>
    simp only [countP_append, countP_replicate, h.active]
    rfl
  case refine_5 =>
    intro hmem
    rcases mem_append.mp hmem with hold | hnew
    · exact h.created hold
    · cases eq_of_mem_replicate hnew

theorem phase_scaleUpLoop (created : ℕ → Bool) (turns : ℕ) :
    (scaleUpLoop created turns s).phase = s.phase := by
  induction turns generalizing s with
  | zero => rfl
  | succ turns ih =>
    rw [scaleUpLoop, ih]

theorem Inv.pushTask [DecidableEq κ] (h : Inv b s) (c : Caller κ) : Inv b (s.pushTask c) := by
  have htasks : (s.executed ++ (s.taskQueue ++ [s.enqueued]) ++
      s.workers.filterMap Worker.held).Perm (range (s.enqueued + 1)) := by
    have hlast := h.tasks.append_right [s.enqueued]
    rw [← range_succ] at hlast
    refine List.Perm.trans ?_ hlast
    simp only [append_assoc]
    exact ((perm_append_comm).append_left _).append_left _
  have hpushed : Inv b { s with
      taskQueue := s.taskQueue ++ [s.enqueued]
      enqueued := s.enqueued + 1 } := h.congr rfl rfl rfl htasks
  exact hpushed.setDepth c _

theorem Inv.growWorkers [DecidableEq κ] (h : Inv b s) (hopen : s.isOpen) {c : Caller κ}
    {created : ℕ → Bool} {depth : ℕ}
    (hmeets : s.outpaced b depth → created s.workers.length ∧ s.phase ≠ .waited) :
    Inv b (s.growWorkers b c created depth) := by
  have hset := h.setDepth c none
  have hlength := length_setDepth s c none
  have hphase := phase_setDepth s c none
  rw [State.growWorkers]
  split
  case isFalse => exact hset
  case isTrue hgrows =>
    have hgrows' : s.outpaced b depth := by
      rw [outpaced, hlength] at hgrows
      exact hgrows
    obtain ⟨hcreated, hwaited⟩ := hmeets hgrows'
    rw [outpaced, Bool.and_eq_true, decide_eq_true_eq, decide_eq_true_eq] at hgrows'
    have hleast := h.least hopen
    have hraw : s.phase ≠ .raw := by
      intro hraw
      rw [isOpen, hraw] at hopen
      cases hopen
    have hgrown := hset.scaleUp created ((s.setDepth c none).workers.length + 1) (Nat.le_succ _)
      (by omega) (by omega) (fun i hlow hhigh => by
        have heq : i = s.workers.length := by omega
        rw [heq]
        exact hcreated) hwaited hraw
    rw [← hphase, ← phase_scaleUpLoop created] at hgrown
    exact hgrown

theorem Inv.takeTask (h : Inv b s) {i : ℕ} (hw : s.workers[i]? = some .take) :
    Inv b (s.takeTask i) := by
  rw [State.takeTask]
  split
  case h_1 task hlast =>
    obtain ⟨front, hqueue⟩ := getLast?_eq_some_iff.mp hlast
    refine h.setWorker hw rfl rfl rfl ?_ rfl (by simp) rfl
    change (s.executed ++ s.taskQueue.dropLast ++ [task]).Perm (s.executed ++ s.taskQueue ++ [])
    rw [hqueue, dropLast_concat, append_nil, append_assoc]
  case h_2 => exact h.setWorker hw rfl rfl rfl (.refl _) rfl (by simp) rfl

theorem Inv.countOut (h : Inv b s) {i n : ℕ} (hw : s.workers[i]? = some .leave)
    (hn : n + 1 = s.activeWorkers) : Inv b ({ s with activeWorkers := n }.setWorker i .left) :=
  h.setWorker hw rfl rfl rfl (.refl _) rfl (by simp) hn

end Calls

section Steps

variable [DecidableEq κ] {s' : State κ} {a : Act κ}

theorem step_inv (h : Inv b s) (hmeets : Meets b s a) (hstep : step b s a = some s') :
    Inv b s' := by
  cases a with
  | construct created =>
    obtain ⟨hraw, hconstruct⟩ := ite_none_right_eq_some.mp hstep
    have hnil := h.raw hraw
    rw [← Option.some.inj hconstruct]
    refine h.scaleUp created b.minThreads ?_ le_rfl b.min_le_max (fun i _ hlt => hmeets i hlt)
      (by simp) (by simp)
    rw [hnil]
    exact Nat.zero_le _
  | push c =>
    obtain ⟨-, hpush⟩ := ite_none_right_eq_some.mp hstep
    exact Option.some.inj hpush ▸ h.pushTask c
  | grow c created =>
    rw [step] at hstep
    split at hstep
    case h_2 => cases hstep
    case h_1 depth hdepth =>
      obtain ⟨hopen, hgrow⟩ := ite_none_right_eq_some.mp hstep
      rw [← Option.some.inj hgrow]
      refine h.growWorkers hopen fun hgrows => ?_
      have hcondition : Meets.Grows b s c created (some (some depth)) := hdepth ▸ hmeets
      obtain ⟨hcreated, houtside⟩ := hcondition hgrows
      refine ⟨hcreated, fun hwaited => ?_⟩
      cases c with
      | outside k => exact houtside rfl hwaited
      | task i =>
        obtain ⟨task, hworker⟩ := task_of_depthOf hdepth
        cases h.left_of_waited hwaited _ (mem_of_getElem? hworker)
  | loadStop i =>
    obtain ⟨hw, hload⟩ := ite_none_right_eq_some.mp hstep
    rw [← Option.some.inj hload]
    cases hstop : s.stop with
    | true => exact h.setWorker hw rfl rfl rfl (.refl _) rfl (by simp) rfl
    | false => exact h.setWorker hw rfl rfl rfl (.refl _) rfl (by simp) rfl
  | take i =>
    obtain ⟨hw, htake⟩ := ite_none_right_eq_some.mp hstep
    exact Option.some.inj htake ▸ h.takeTask hw
  | finish i =>
    rw [step] at hstep
    split at hstep
    case h_2 => cases hstep
    case h_1 task hw =>
      rw [← Option.some.inj hstep]
      refine h.setWorker hw rfl rfl rfl ?_ rfl (by simp) rfl
      change (s.executed ++ [task] ++ s.taskQueue ++ []).Perm (s.executed ++ s.taskQueue ++ [task])
      rw [append_nil, append_assoc, append_assoc]
      exact perm_append_comm.append_left _
  | leave i =>
    obtain ⟨hw, hleave⟩ := ite_none_right_eq_some.mp hstep
    rw [← Option.some.inj hleave]
    have hpos : 0 < s.workers.countP Worker.inLoop :=
      countP_pos_iff.mpr ⟨.leave, mem_of_getElem? hw, rfl⟩
    have hcount : s.activeWorkers ≤ s.workers.length := h.active ▸ countP_le_length
    have hmost := h.most
    have hmax := b.max_lt
    have hactive := h.active
    have hone : 1 ≤ s.activeWorkers := by omega
    have hlt : s.activeWorkers < 2 ^ 64 := by omega
    rw [wrapSub_of_le hone hlt]
    exact h.countOut hw (Nat.sub_add_cancel hone)
  | storeStop =>
    obtain ⟨halive, hstore⟩ := ite_none_right_eq_some.mp hstep
    rw [← Option.some.inj hstore]
    have hopen : s.isOpen := by rw [isOpen, halive]; rfl
    exact ⟨h.tasks, fun _ => h.least hopen, h.most, h.active, h.created,
      fun heq => Phase.noConfusion heq, fun heq => Phase.noConfusion heq⟩
  | loadActive =>
    obtain ⟨hwaiting, hload⟩ := ite_none_right_eq_some.mp hstep
    rw [← Option.some.inj hload]
    have hopen : s.isOpen := by rw [isOpen, hwaiting]; rfl
    refine ⟨h.tasks, fun _ => h.least hopen, h.most, h.active, h.created, fun heq => ?_,
      fun heq => ?_⟩
    · by_contra hne
      rw [if_neg hne] at heq
      cases heq
    · split at heq
      case isTrue => cases heq
      case isFalse => cases heq
  | deleteWorkers =>
    obtain ⟨hwaited, hdelete⟩ := ite_none_right_eq_some.mp hstep
    rw [← Option.some.inj hdelete]
    have hleft := h.left_of_waited hwaited
    have hheld : s.workers.filterMap Worker.held = [] :=
      filterMap_eq_nil_iff.mpr fun w hw => by rw [hleft w hw]; rfl
    have htasks := h.tasks
    rw [hheld] at htasks
    exact ⟨htasks, fun hopen => absurd hopen Bool.false_ne_true, Nat.zero_le _, h.waited hwaited,
      not_mem_nil, fun heq => Phase.noConfusion heq, fun heq => Phase.noConfusion heq⟩

end Steps

/-- In every execution whose steps meet the condition, tasks and workers are accounted for in
every state, and the destructor deletes the workers only after every one has left its loop. -/
theorem workers_accounted [DecidableEq κ] (e : Execution (machine κ b))
    (hmeets : ∀ i a, e.act i = some a → Meets b (e.state i) a) (i : ℕ) : Accounted b (e.state i) ∧
      (e.act i = some .deleteWorkers → ∀ w ∈ (e.state i).workers, w = .left) := by
  have hinv : Inv b (e.state i) :=
    e.invariant inv_init (fun _ _ _ h hguard hstep => step_inv h hguard hstep) hmeets i
  refine ⟨hinv.accounted, fun hact => ?_⟩
  obtain ⟨hwaited, -⟩ := ite_none_right_eq_some.mp (e.next_some hact)
  exact hinv.left_of_waited hwaited

section Examples

theorem one_le_two : 1 ≤ 2 := by decide

theorem two_lt : 2 < 2 ^ 64 := by decide

def small : Bounds := ⟨1, 2, one_le_two, two_lt⟩

/-- The pool grows under two tasks, one of which calls `enqueue` itself, and is destroyed with a
task left in its queue. -/
def shutdownRun : List (Act Bool) :=
  [.construct fun _ => true, .push (.outside true), .push (.outside false),
    .grow (.outside true) fun _ => true, .grow (.outside false) fun _ => true, .loadStop 0,
    .loadStop 1, .take 1, .take 0, .push (.task 1), .storeStop, .grow (.task 1) fun _ => false,
    .finish 0, .finish 1, .loadStop 0, .loadStop 1, .leave 1, .loadActive, .leave 0,
    .loadActive, .deleteWorkers]

theorem workers_accounted_shutdown : ∃ e : Execution (machine Bool small),
    e.act 20 = some .deleteWorkers ∧ (e.state 21).executed = [0, 1] ∧
      (e.state 21).taskQueue = [2] ∧ ∀ w ∈ (e.state 20).workers, w = .left := by
  have hrun : ((machine Bool small).run (machine Bool small).init shutdownRun).isSome := by
    decide +kernel
  have hend : (stateAt (machine Bool small) (machine Bool small).init shutdownRun 21).executed =
        [0, 1] ∧
      (stateAt (machine Bool small) (machine Bool small).init shutdownRun 21).taskQueue = [2] := by
    decide +kernel
  refine ⟨.ofRun _ hrun, rfl, hend.1, hend.2,
    (workers_accounted _ (Execution.ofRun_guarded (by decide +kernel)) 20).2 rfl⟩

/-- The second `enqueue` has the pool grow after the destructor has seen no active workers. -/
def raceRun : List (Act Bool) :=
  [.construct fun _ => true, .push (.outside true), .push (.outside false), .storeStop,
    .loadStop 0, .leave 0, .loadActive, .grow (.outside false) fun _ => true, .deleteWorkers]

theorem workers_unaccounted :
    (∃ s, (machine Bool small).run (machine Bool small).init [.construct fun _ => false] = some s ∧
      s.activeWorkers ≠ s.workers.countP Worker.inLoop) ∧
    ∃ e : Execution (machine Bool small), e.act 8 = some .deleteWorkers ∧
      Worker.loop ∈ (e.state 8).workers := by
  refine ⟨⟨_, rfl, by decide +kernel⟩, ?_⟩
  have hrun : ((machine Bool small).run (machine Bool small).init raceRun).isSome := by
    decide +kernel
  have hloop : Worker.loop ∈
      (stateAt (machine Bool small) (machine Bool small).init raceRun 8).workers := by
    decide +kernel
  exact ⟨.ofRun _ hrun, rfl, hloop⟩

end Examples

end Equilibrium.ThreadPool
