import Equilibrium.Library.Interleaving
import Mathlib.Data.List.Nodup
import Mathlib.Data.List.Perm.Subperm

/-! The epoch scheme of `namespace ebr` in `base/containers/lock_free_ordered_map.h`,
with the stamp and free steps of `collect_garbage_locked`. Every access of an atomic
is one step; the section under `pool_mutex` is one step, since it makes a single store
that others can see. Which nodes are swept when the collector stamps is the
environment's choice. `now`, `announcedAt`, `readAt` and `stampedAt` record the
history and are read by no step. -/

namespace Equilibrium.Ebr

open Library.Interleaving

def kMaxSlots : ℕ := 4096

/-- Whose `try_advance` it is. -/
inductive Caller where
  | user
  | collector
  deriving DecidableEq

/-- The next access of a thread. -/
inductive Pc where
  | idle
  | announceLoad
  | announceExchange (e : ℤ)
  | announceCheck (e : ℤ)
  | pushId (id : ℕ)
  | advanceLoad (caller : Caller)
  | advanceWatermark (caller : Caller) (e : ℤ)
  | advanceScan (caller : Caller) (e : ℤ) (n i : ℕ)
  | advanceCas (caller : Caller) (e : ℤ)
  | gcEpoch
  | gcStamp (epoch : ℤ) (readAt : ℕ)
  | gcSafe
  | gcFree (safe : ℤ)
  deriving DecidableEq

/-- A thread: its slot while it is registered, and `nest_count`. -/
structure Local where
  id : Option ℕ
  nest : ℕ
  pc : Pc
  announcedAt : ℕ

/-- The fields of a map node that the collector uses. -/
structure Node where
  retired : ℤ
  freed : Bool
  readAt : ℕ
  stampedAt : ℕ

structure State (Thread : Type) where
  current : ℤ
  slots : ℕ → ℤ
  freeIds : List ℕ
  highWatermark : ℕ
  /-- Threads that own a slot. -/
  live : ℕ
  gcMutex : Option Thread
  thread : Thread → Local
  nodes : ℕ → Node
  now : ℕ

inductive Act (Thread : Type) where
  | register (t : Thread)
  | exit (t : Thread)
  | guard (t : Thread)
  | release (t : Thread)
  | tryAdvance (t : Thread)
  | collect (t : Thread)
  | access (t : Thread)
  | stamp (t : Thread) (x : ℕ)
  | stampDone (t : Thread)
  | free (t : Thread) (x : ℕ)
  | collectDone (t : Thread)

variable {Thread : Type} [DecidableEq Thread]

/-- One step of thread `t`, which leaves it as `l`. -/
def State.put (s : State Thread) (t : Thread) (l : Local) : State Thread :=
  { s with thread := Function.update s.thread t l, now := s.now + 1 }

def State.goto (s : State Thread) (t : Thread) (p : Pc) : State Thread :=
  s.put t { s.thread t with pc := p }

/-- Where `try_advance` returns to. -/
def Caller.next : Caller → Pc
  | .user => .idle
  | .collector => .gcSafe

def acquireId (s : State Thread) (t : Thread) : State Thread :=
  match s.freeIds.getLast? with
  | some id =>
    { s.put t { s.thread t with id := some id } with
      freeIds := s.freeIds.dropLast
      live := s.live + 1 }
  | none =>
    { s.put t { s.thread t with id := some s.highWatermark } with
      highWatermark := s.highWatermark + 1
      live := s.live + 1 }

def access (s : State Thread) (t : Thread) : Option (State Thread) :=
  match (s.thread t).pc, (s.thread t).id with
  | .announceLoad, some _ => some (s.goto t (.announceExchange s.current))
  | .announceExchange e, some id =>
    some { s.goto t (.announceCheck e) with slots := Function.update s.slots id e }
  | .announceCheck e, some _ =>
    if s.current = e then some (s.put t { s.thread t with pc := .idle, announcedAt := s.now })
    else some (s.goto t .announceLoad)
  | .pushId id, _ =>
    some { s.put t { s.thread t with id := none, pc := .idle } with
      freeIds := s.freeIds ++ [id]
      live := s.live - 1 }
  | .advanceLoad c, _ => some (s.goto t (.advanceWatermark c s.current))
  | .advanceWatermark c e, _ => some (s.goto t (.advanceScan c e s.highWatermark 0))
  | .advanceScan c e n i, _ =>
    if i < n then
      if s.slots i ≠ -1 ∧ s.slots i < e then some (s.goto t c.next)
      else some (s.goto t (.advanceScan c e n (i + 1)))
    else some (s.goto t (.advanceCas c e))
  | .advanceCas c e, _ =>
    some { s.goto t c.next with current := if s.current = e then e + 1 else s.current }
  | .gcEpoch, _ => some (s.goto t (.gcStamp s.current s.now))
  | .gcSafe, _ => some (s.goto t (.gcFree s.current))
  | _, _ => none

def step (s : State Thread) : Act Thread → Option (State Thread)
  | .register t =>
    if (s.thread t).id = none ∧ (s.thread t).pc = .idle ∧ s.live < kMaxSlots then
      some (acquireId s t)
    else none
  | .exit t =>
    match (s.thread t).id with
    | some id =>
      if (s.thread t).pc = .idle ∧ (s.thread t).nest = 0 then
        some { s.goto t (.pushId id) with slots := Function.update s.slots id (-1) }
      else none
    | none => none
  | .guard t =>
    if (s.thread t).id ≠ none ∧ (s.thread t).pc = .idle then
      some (s.put t { s.thread t with
        nest := (s.thread t).nest + 1
        pc := if (s.thread t).nest = 0 then .announceLoad else .idle })
    else none
  | .release t =>
    match (s.thread t).id with
    | some id =>
      if (s.thread t).pc = .idle ∧ 0 < (s.thread t).nest then
        some { s.put t { s.thread t with nest := (s.thread t).nest - 1 } with
          slots := if (s.thread t).nest = 1 then Function.update s.slots id (-1) else s.slots }
      else none
    | none => none
  | .tryAdvance t =>
    if (s.thread t).pc = .idle then some (s.goto t (.advanceLoad .user)) else none
  | .collect t =>
    if (s.thread t).pc = .idle ∧ s.gcMutex = none then
      some { s.goto t .gcEpoch with gcMutex := some t }
    else none
  | .access t => access s t
  | .stamp t x =>
    match (s.thread t).pc with
    | .gcStamp epoch readAt =>
      if (s.nodes x).retired < 0 then
        some { s.goto t (.gcStamp epoch readAt) with
          nodes := Function.update s.nodes x ⟨epoch, (s.nodes x).freed, readAt, s.now⟩ }
      else none
    | _ => none
  | .stampDone t =>
    match (s.thread t).pc with
    | .gcStamp _ _ => some (s.goto t (.advanceLoad .collector))
    | _ => none
  | .free t x =>
    match (s.thread t).pc with
    | .gcFree safe =>
      if 0 ≤ (s.nodes x).retired ∧ (s.nodes x).retired + 2 ≤ safe ∧ (s.nodes x).freed = false then
        some { s.goto t (.gcFree safe) with
          nodes := Function.update s.nodes x { s.nodes x with freed := true } }
      else none
    | _ => none
  | .collectDone t =>
    match (s.thread t).pc with
    | .gcFree _ => some { s.goto t .idle with gcMutex := none }
    | _ => none

def machine (Thread : Type) [DecidableEq Thread] : Machine (State Thread) (Act Thread) where
  init :=
    { current := 0
      slots := fun _ => -1
      freeIds := []
      highWatermark := 0
      live := 0
      gcMutex := none
      thread := fun _ => ⟨none, 0, .idle, 0⟩
      nodes := fun _ => ⟨-1, false, 0, 0⟩
      now := 0 }
  step := step

/-! The global epoch stays within one of every announced epoch, also while a scan of
the slots is stalled; so two advances after the collector read the epoch it stamps,
the guards of that instant are gone. -/

open List Nat Option
open Function (update update_self update_of_ne)

variable {Thread : Type}

def Pc.Announcing : Pc → Prop
  | .announceLoad => True
  | .announceExchange _ => True
  | .announceCheck _ => True
  | _ => False

/-- A guard of thread `t` is active: its announce is complete and not yet taken back. -/
def Active (s : State Thread) (t : Thread) : Prop :=
  0 < (s.thread t).nest ∧ ¬ (s.thread t).pc.Announcing

def Reader (s : State Thread) (t : Thread) (id : ℕ) : Prop :=
  Active s t ∧ (s.thread t).id = some id

/-! Slot ids. -/

structure Ids (s : State Thread) : Prop where
  lt : ∀ t id, (s.thread t).id = some id → id < s.highWatermark
  inj : ∀ t u id, (s.thread t).id = some id → (s.thread u).id = some id → t = u
  free_lt : ∀ id ∈ s.freeIds, id < s.highWatermark
  free_nodup : s.freeIds.Nodup
  not_free : ∀ t id, (s.thread t).id = some id → id ∉ s.freeIds
  count : s.highWatermark = s.freeIds.length + s.live
  watermark_le : s.highWatermark ≤ kMaxSlots
  registered : ∀ t, 0 < (s.thread t).nest → (s.thread t).id ≠ none

/-! The epochs. -/

/-- What the local variables of thread `t` at `p` agree on with the shared state. -/
def PcOk (s : State Thread) (t : Thread) : Pc → Prop
  | .announceExchange e => 0 ≤ e
  | .announceCheck e => 0 ≤ e ∧ ∀ id, (s.thread t).id = some id → s.slots id = e
  | .pushId id => (s.thread t).id = some id ∧ (s.thread t).nest = 0
  | .advanceWatermark _ e => e ≤ s.current
  | .advanceScan _ e n i => e ≤ s.current ∧
      (e = s.current → ∀ u id, Reader s u id → s.slots id < e → i ≤ id ∧ id < n)
  | .advanceCas _ e => e ≤ s.current ∧ (e = s.current → ∀ u id, Reader s u id → e ≤ s.slots id)
  | .gcStamp r readAt => r ≤ s.current ∧ readAt ≤ s.now ∧
      ∀ u id, Reader s u id → (s.thread u).announcedAt < readAt → s.slots id ≤ r
  | .gcFree safe => safe ≤ s.current
  | _ => True

def NodeOk (s : State Thread) (n : Node) : Prop :=
  0 ≤ n.retired → n.readAt ≤ s.now ∧
    ∀ u id, Reader s u id → (s.thread u).announcedAt < n.readAt → s.slots id ≤ n.retired

structure Inv (s : State Thread) : Prop where
  ids : Ids s
  current : 0 ≤ s.current
  reader : ∀ u id, Reader s u id →
    0 ≤ s.slots id ∧ s.slots id ≤ s.current ∧ s.current ≤ s.slots id + 1
  pc : ∀ t, PcOk s t (s.thread t).pc
  node : ∀ x, NodeOk s (s.nodes x)

/-- What a step of thread `t` may do to the others: the epoch does not fall, a guard it
activates announces the current epoch, and it writes no slot but its own. -/
structure Evolves (s s' : State Thread) (t : Thread) : Prop where
  current : s.current ≤ s'.current
  now : s.now ≤ s'.now
  readers : ∀ u id, Reader s' u id →
    (Reader s u id ∧ s'.slots id = s.slots id ∧
      (s'.thread u).announcedAt = (s.thread u).announcedAt) ∨
    (s'.current = s.current ∧ s'.slots id = s.current ∧ s.now ≤ (s'.thread u).announcedAt)
  thread : ∀ u, u ≠ t → s'.thread u = s.thread u
  slots : ∀ u id, u ≠ t → (s.thread u).id = some id → s'.slots id = s.slots id

variable {s s' : State Thread} {t : Thread}

theorem Evolves.bounded (h : Evolves s s' t) {r : ℤ} {at' : ℕ} (hat : at' ≤ s.now)
    (hold : ∀ u id, Reader s u id → (s.thread u).announcedAt < at' → s.slots id ≤ r) :
    ∀ u id, Reader s' u id → (s'.thread u).announcedAt < at' → s'.slots id ≤ r := by
  intro u id hu hlt
  rcases h.readers u id hu with ⟨hu', hslot, hannounced⟩ | ⟨-, -, hnow⟩
  · rw [hslot]
    exact hold u id hu' (hannounced ▸ hlt)
  · omega

variable {u : Thread}

theorem PcOk.evolve {s s' : State Thread} {t u : Thread} {p : Pc} (h : PcOk s u p) (hut : u ≠ t)
    (he : Evolves s s' t) : PcOk s' u p := by
  cases p with
  | idle => trivial
  | announceLoad => trivial
  | announceExchange e => exact h
  | announceCheck e =>
    refine ⟨h.1, fun id hid => ?_⟩
    rw [he.thread u hut] at hid
    rw [he.slots u id hut hid, h.2 id hid]
  | pushId id =>
    rw [PcOk, he.thread u hut]
    exact h
  | advanceLoad c => trivial
  | advanceWatermark c e => exact Int.le_trans h he.current
  | advanceScan c e n i =>
    refine ⟨Int.le_trans h.1 he.current, fun heq w id hw hlt => ?_⟩
    have hcur : s'.current = s.current := Int.le_antisymm (heq ▸ h.1) he.current
    rcases he.readers w id hw with ⟨hw', hslot, -⟩ | ⟨-, hslot, -⟩
    · exact h.2 (heq.trans hcur) w id hw' (hslot ▸ hlt)
    · omega
  | advanceCas c e =>
    refine ⟨Int.le_trans h.1 he.current, fun heq w id hw => ?_⟩
    have hcur : s'.current = s.current := Int.le_antisymm (heq ▸ h.1) he.current
    rcases he.readers w id hw with ⟨hw', hslot, -⟩ | ⟨-, hslot, -⟩
    · exact hslot ▸ h.2 (heq.trans hcur) w id hw'
    · omega
  | gcEpoch => trivial
  | gcStamp r readAt =>
    exact ⟨Int.le_trans h.1 he.current, Nat.le_trans h.2.1 he.now, he.bounded h.2.1 h.2.2⟩
  | gcSafe => trivial
  | gcFree safe => exact Int.le_trans h he.current

theorem NodeOk.evolve {n : Node} (h : NodeOk s n) (he : Evolves s s' t) : NodeOk s' n := fun hr =>
  ⟨Nat.le_trans (h hr).1 he.now, he.bounded (h hr).1 (h hr).2⟩

theorem Inv.evolve (h : Inv s) (he : Evolves s s' t) (hids : Ids s')
    (hcurrent : s'.current = s.current) (hnodes : s'.nodes = s.nodes)
    (hpc : PcOk s' t (s'.thread t).pc) : Inv s' where
  ids := hids
  current := hcurrent ▸ h.current
  reader := by
    intro u id hu
    rw [hcurrent]
    rcases he.readers u id hu with ⟨hu', hslot, -⟩ | ⟨-, hslot, -⟩
    · rw [hslot]
      exact h.reader u id hu'
    · have := h.current
      omega
  pc := by
    intro u
    by_cases hut : u = t
    · exact hut ▸ hpc
    · rw [he.thread u hut]
      exact (h.pc u).evolve hut he
  node := fun x => by
    rw [hnodes]
    exact (h.node x).evolve he

variable [DecidableEq Thread]

@[simp] theorem put_thread_self (s : State Thread) (t : Thread) (l : Local) :
    (s.put t l).thread t = l := update_self _ _ _

theorem put_thread_of_ne (s : State Thread) (h : u ≠ t) (l : Local) :
    (s.put t l).thread u = s.thread u := update_of_ne h _ _

@[simp] theorem goto_thread_self (s : State Thread) (t : Thread) (p : Pc) :
    (s.goto t p).thread t = { s.thread t with pc := p } := update_self _ _ _

theorem goto_thread_of_ne (s : State Thread) (h : u ≠ t) (p : Pc) :
    (s.goto t p).thread u = s.thread u := update_of_ne h _ _

variable {l : Local}

theorem Ids.goto (h : Ids s) (hid : l.id = (s.thread t).id)
    (hnest : 0 < l.nest → (s.thread t).id ≠ none) : Ids (s.put t l) := by
  have hsame : ∀ u, ((s.put t l).thread u).id = (s.thread u).id := by
    intro u
    by_cases hut : u = t
    · rw [hut, put_thread_self, hid]
    · rw [put_thread_of_ne s hut]
  refine ⟨fun u id hu => h.lt u id (hsame u ▸ hu), fun u w id hu hw => ?_, h.free_lt, h.free_nodup,
    fun u id hu => h.not_free u id (hsame u ▸ hu), h.count, h.watermark_le, fun u hu => ?_⟩
  · exact h.inj u w id (hsame u ▸ hu) (hsame w ▸ hw)
  · rw [hsame u]
    by_cases hut : u = t
    · subst hut
      rw [put_thread_self] at hu
      exact hnest hu
    · rw [put_thread_of_ne s hut] at hu
      exact h.registered u hu

theorem evolves_put (hid : l.id = (s.thread t).id)
    (hactive : 0 < l.nest ∧ ¬ l.pc.Announcing → Active s t)
    (hat : l.announcedAt = (s.thread t).announcedAt) : Evolves s (s.put t l) t := by
  refine ⟨Int.le_refl _, le_succ _, fun u id hu => .inl ?_,
    fun u hu => put_thread_of_ne s hu l, fun _ _ _ _ => rfl⟩
  by_cases hut : u = t
  · subst hut
    obtain ⟨hact, hu⟩ := hu
    rw [Active, put_thread_self] at hact
    rw [put_thread_self] at hu ⊢
    exact ⟨⟨hactive hact, hid ▸ hu⟩, rfl, hat⟩
  · rw [Reader, Active, put_thread_of_ne s hut] at hu
    rw [put_thread_of_ne s hut]
    exact ⟨hu, rfl, rfl⟩

theorem Inv.put (h : Inv s) (hid : l.id = (s.thread t).id)
    (hnest : 0 < l.nest → (s.thread t).id ≠ none)
    (hactive : 0 < l.nest ∧ ¬ l.pc.Announcing → Active s t)
    (hat : l.announcedAt = (s.thread t).announcedAt) (hpc : PcOk (s.put t l) t l.pc) :
    Inv (s.put t l) := by
  refine h.evolve (evolves_put hid hactive hat) (h.ids.goto hid hnest) rfl rfl ?_
  rw [put_thread_self]
  exact hpc

theorem Inv.goto (h : Inv s) {p : Pc} (hp : ¬ p.Announcing → ¬ (s.thread t).pc.Announcing)
    (hpc : PcOk (s.goto t p) t p) : Inv (s.goto t p) :=
  h.put rfl (h.ids.registered t) (fun hact => ⟨hact.1, hp hact.2⟩) rfl hpc

variable {id : ℕ}

theorem Reader.of_goto {p : Pc} (hp : ¬ p.Announcing → ¬ (s.thread t).pc.Announcing)
    (h : Reader (s.goto t p) u id) : Reader s u id := by
  by_cases hut : u = t
  · subst hut
    rw [Reader, Active, goto_thread_self] at h
    exact ⟨⟨h.1.1, hp h.1.2⟩, h.2⟩
  · rwa [Reader, Active, goto_thread_of_ne s hut] at h

/-! Registration and exit. -/

theorem Ids.give (h : Ids s) {watermark : ℕ} {ids : List ℕ} (hlt : id < watermark)
    (hle : s.highWatermark ≤ watermark) (hunused : ∀ u, (s.thread u).id ≠ some id)
    (hfree : ∀ i ∈ ids, i ∈ s.freeIds) (hnodup : ids.Nodup) (hid : id ∉ ids)
    (hcount : watermark = ids.length + (s.live + 1)) (hmax : watermark ≤ kMaxSlots) :
    Ids { s.put t { s.thread t with id := some id } with
      freeIds := ids
      highWatermark := watermark
      live := s.live + 1 } := by
  have hcases : ∀ u i, ((s.put t { s.thread t with id := some id }).thread u).id = some i →
      (u = t ∧ id = i) ∨ (s.thread u).id = some i := by
    intro u i hu
    by_cases hut : u = t
    · rw [hut, put_thread_self] at hu
      exact .inl ⟨hut, Option.some.inj hu⟩
    · rw [put_thread_of_ne s hut] at hu
      exact .inr hu
  refine ⟨fun u i hu => ?_, fun u w i hu hw => ?_, fun i hi => ?_, hnodup, fun u i hu => ?_, hcount,
    hmax, fun u hu => ?_⟩
  · rcases hcases u i hu with ⟨-, rfl⟩ | hu
    · exact hlt
    · exact Nat.lt_of_lt_of_le (h.lt u i hu) hle
  · rcases hcases u i hu with ⟨rfl, rfl⟩ | hu' <;> rcases hcases w _ hw with ⟨rfl, hi⟩ | hw'
    · rfl
    · exact absurd hw' (hunused w)
    · exact absurd (hi ▸ hu') (hunused u)
    · exact h.inj u w i hu' hw'
  · exact Nat.lt_of_lt_of_le (h.free_lt i (hfree i hi)) hle
  · rcases hcases u i hu with ⟨-, rfl⟩ | hu
    · exact hid
    · exact fun hi => h.not_free u i hu (hfree i hi)
  · by_cases hut : u = t
    · simp [hut]
    · simp only [put_thread_of_ne s hut] at hu ⊢
      exact h.registered u hu

theorem Ids.acquireId (h : Ids s) (hlive : s.live < kMaxSlots) : Ids (acquireId s t) := by
  have hcount := h.count
  unfold Ebr.acquireId
  split
  case h_1 id hlast =>
    obtain ⟨rest, hrest⟩ := getLast?_eq_some_iff.mp hlast
    have hnodup := h.free_nodup
    rw [hrest] at hcount hnodup ⊢
    rw [dropLast_concat]
    rw [length_append, length_singleton] at hcount
    have hmem : id ∈ s.freeIds := by simp [hrest]
    refine h.give (h.free_lt id hmem) (Nat.le_refl _) (fun u hu => h.not_free u id hu hmem)
      (fun i hi => by simp [hrest, hi]) (hnodup.sublist (sublist_append_left _ _)) ?_
      (show s.highWatermark = rest.length + (s.live + 1) by omega) h.watermark_le
    exact fun hid => (nodup_append.mp hnodup).2.2 id hid id mem_cons_self rfl
  case h_2 hnone =>
    have hempty : s.freeIds = [] := by simpa using hnone
    rw [hempty, length_nil] at hcount
    refine h.give (lt_succ_self _) (le_succ _)
      (fun u hu => Nat.lt_irrefl _ (h.lt u _ hu)) (fun i hi => hi) h.free_nodup
      (show s.highWatermark ∉ s.freeIds by simp [hempty])
      (show s.highWatermark + 1 = s.freeIds.length + (s.live + 1) by
        rw [hempty, length_nil]
        omega) (by omega)

section

variable (h : Inv s)
include h

theorem Inv.acquireId (ht : (s.thread t).id = none) (hpc : (s.thread t).pc = .idle)
    (hlive : s.live < kMaxSlots) : Inv (acquireId s t) := by
  have hnest : (s.thread t).nest = 0 := by
    by_contra hne
    exact h.ids.registered t (Nat.pos_of_ne_zero hne) ht
  have hids := h.ids.acquireId (t := t) hlive
  obtain ⟨s', hs'⟩ : ∃ s', s' = Ebr.acquireId s t := ⟨_, rfl⟩
  have hself : (s'.thread t).nest = 0 ∧ (s'.thread t).pc = .idle := by
    rw [hs', Ebr.acquireId]
    split <;> simp [hnest, hpc]
  have hother : ∀ u, u ≠ t → s'.thread u = s.thread u := by
    intro u hu
    rw [hs', Ebr.acquireId]
    split <;> exact put_thread_of_ne s hu _
  have hrest : s'.current = s.current ∧ s'.now = s.now + 1 ∧ s'.slots = s.slots ∧
      s'.nodes = s.nodes := by
    rw [hs', Ebr.acquireId]
    split <;> exact ⟨rfl, rfl, rfl, rfl⟩
  rw [← hs'] at hids ⊢
  refine h.evolve ⟨?_, ?_, fun u id hu => .inl ?_, hother, ?_⟩ hids hrest.1 hrest.2.2.2 ?_
  · exact Int.le_of_eq hrest.1.symm
  · rw [hrest.2.1]
    exact le_succ _
  · have hut : u ≠ t := by
      rintro rfl
      exact absurd hu.1.1 (by rw [hself.1]; exact Nat.lt_irrefl 0)
    rw [Reader, Active, hother u hut] at hu
    rw [hrest.2.2.1, hother u hut]
    exact ⟨hu, rfl, rfl⟩
  · exact fun _ _ _ _ => by rw [hrest.2.2.1]
  · rw [hself.2]
    trivial

theorem Inv.writeSlot {e : ℤ} (ht : (s.thread t).id = some id) (hid : l.id = some id)
    (hinactive : ¬ (0 < l.nest ∧ ¬ l.pc.Announcing))
    (hpc : PcOk { s.put t l with slots := update s.slots id e } t l.pc) :
    Inv { s.put t l with slots := update s.slots id e } := by
  have hslot : ∀ u i, u ≠ t → (s.thread u).id = some i →
      update s.slots id e i = s.slots i := fun u i hut hu =>
    update_of_ne (fun (hi : i = id) => hut (h.ids.inj u t id (hi ▸ hu) ht)) _ _
  have hids : Ids { s.put t l with slots := update s.slots id e } := by
    have := h.ids.goto (hid.trans ht.symm) fun _ => by simp [ht]
    exact ⟨this.lt, this.inj, this.free_lt, this.free_nodup, this.not_free, this.count,
      this.watermark_le, this.registered⟩
  refine h.evolve ⟨Int.le_refl _, le_succ _, fun u i hu => .inl ?_,
    fun u hu => put_thread_of_ne s hu l, hslot⟩ hids rfl rfl ?_
  · have hut : u ≠ t := by
      rintro rfl
      obtain ⟨hact, -⟩ := hu
      rw [Active] at hact
      simp only [put_thread_self] at hact
      exact hinactive hact
    rw [Reader, Active] at hu
    simp only [put_thread_of_ne s hut] at hu ⊢
    exact ⟨hu, hslot u i hut hu.2, trivial⟩
  · simp only [put_thread_self]
    exact hpc

theorem Inv.pushId (hpc : (s.thread t).pc = .pushId id) :
    Inv { s.put t { s.thread t with id := none, pc := .idle } with
      freeIds := s.freeIds ++ [id]
      live := s.live - 1 } := by
  have hpush := h.pc t
  rw [hpc] at hpush
  obtain ⟨hid, hnest⟩ := hpush
  have hcases : ∀ u i, ((s.put t { s.thread t with id := none, pc := .idle }).thread u).id =
      some i → u ≠ t ∧ (s.thread u).id = some i := by
    intro u i hu
    by_cases hut : u = t
    · rw [hut, put_thread_self] at hu
      exact nomatch hu
    · rw [put_thread_of_ne s hut] at hu
      exact ⟨hut, hu⟩
  have hne : ∀ u i, u ≠ t → (s.thread u).id = some i → i ≠ id := fun u i hut hu hi =>
    hut (h.ids.inj u t id (hi ▸ hu) hid)
  have hlive : 0 < s.live := by
    have hsub : id :: s.freeIds ⊆ range s.highWatermark := by
      intro i hi
      rw [mem_range]
      rcases mem_cons.mp hi with rfl | hi
      · exact h.ids.lt t i hid
      · exact h.ids.free_lt i hi
    have hle := (subperm_of_subset
      (nodup_cons.mpr ⟨h.ids.not_free t id hid, h.ids.free_nodup⟩) hsub).length_le
    rw [length_cons, length_range] at hle
    have := h.ids.count
    omega
  have hids : Ids { s.put t { s.thread t with id := none, pc := .idle } with
      freeIds := s.freeIds ++ [id], live := s.live - 1 } := by
    refine ⟨fun u i hu => h.ids.lt u i (hcases u i hu).2, fun u w i hu hw => ?_, fun i hi => ?_, ?_,
      fun u i hu hi => ?_, ?_, h.ids.watermark_le, fun u hu => ?_⟩
    · exact h.ids.inj u w i (hcases u i hu).2 (hcases w i hw).2
    · rcases mem_append.mp hi with hi | hi
      · exact h.ids.free_lt i hi
      · exact mem_singleton.mp hi ▸ h.ids.lt t id hid
    · refine nodup_append.mpr ⟨h.ids.free_nodup, by simp, fun a ha b hb hab => ?_⟩
      rw [mem_singleton.mp hb] at hab
      exact h.ids.not_free t id hid (hab ▸ ha)
    · obtain ⟨hut, hu⟩ := hcases u i hu
      rcases mem_append.mp hi with hi | hi
      · exact h.ids.not_free u i hu hi
      · exact hne u i hut hu (mem_singleton.mp hi)
    · have := h.ids.count
      show s.highWatermark = (s.freeIds ++ [id]).length + (s.live - 1)
      rw [length_append, length_singleton]
      omega
    · by_cases hut : u = t
      · simp only [hut, put_thread_self, hnest] at hu
        cases hu
      · simp only [put_thread_of_ne s hut] at hu ⊢
        exact h.ids.registered u hu
  refine h.evolve ⟨Int.le_refl _, le_succ _, fun u i hu => .inl ?_,
    fun u hu => put_thread_of_ne s hu _, fun _ _ _ _ => rfl⟩ hids rfl rfl ?_
  · obtain ⟨hut, -⟩ := hcases u i hu.2
    rw [Reader, Active] at hu
    simp only [put_thread_of_ne s hut] at hu ⊢
    exact ⟨hu, rfl, trivial⟩
  · simp only [put_thread_self]
    trivial

/-! Guards and the epoch. -/

theorem Inv.guard (hid : (s.thread t).id ≠ none) (hpc : (s.thread t).pc = .idle) :
    Inv (s.put t { s.thread t with
      nest := (s.thread t).nest + 1
      pc := if (s.thread t).nest = 0 then .announceLoad else .idle }) := by
  refine h.put rfl (fun _ => hid) (fun hact => ?_) rfl ?_
  · split_ifs at hact with hnest
    · exact absurd trivial hact.2
    · exact ⟨Nat.pos_of_ne_zero hnest, by rw [hpc]; exact not_false⟩
  · split_ifs <;> trivial

theorem Inv.release (hid : (s.thread t).id = some id) (hpc : (s.thread t).pc = .idle)
    (hnest : 0 < (s.thread t).nest) :
    Inv { s.put t { s.thread t with nest := (s.thread t).nest - 1 } with
      slots := if (s.thread t).nest = 1 then update s.slots id (-1) else s.slots } := by
  split_ifs with hone
  · refine h.writeSlot hid hid (fun hact => ?_) ?_
    · simp [hone] at hact
    · rw [hpc]
      trivial
  · refine h.put rfl (fun _ => by simp [hid]) (fun hact => ⟨hnest, hact.2⟩) rfl ?_
    rw [hpc]
    trivial

theorem Inv.announced {e : ℤ} (hpc : (s.thread t).pc = .announceCheck e) (he : s.current = e) :
    Inv (s.put t { s.thread t with pc := .idle, announcedAt := s.now }) := by
  have hslot := h.pc t
  rw [hpc] at hslot
  refine h.evolve ⟨Int.le_refl _, le_succ _, fun u id hu => ?_,
    fun u hu => put_thread_of_ne s hu _, fun _ _ _ _ => rfl⟩
    (h.ids.goto rfl (h.ids.registered t)) rfl rfl ?_
  · by_cases hut : u = t
    · subst hut
      have hid : (s.thread u).id = some id := by simpa using hu.2
      refine .inr ⟨rfl, ?_, ?_⟩
      · exact (hslot.2 id hid).trans he.symm
      · simp
    · rw [Reader, Active, put_thread_of_ne s hut] at hu
      rw [put_thread_of_ne s hut]
      exact .inl ⟨hu, rfl, rfl⟩
  · rw [put_thread_self]
    trivial

theorem Inv.advanced {c : Caller} (hpc : (s.thread t).pc = .advanceCas c s.current) :
    Inv { s.goto t c.next with current := s.current + 1 } := by
  have hcas := h.pc t
  rw [hpc] at hcas
  have hreader : ∀ u id, Reader { s.goto t c.next with current := s.current + 1 } u id →
      Reader s u id := fun u id hu =>
    Reader.of_goto (fun _ => by rw [hpc]; exact not_false) hu
  have hat : ∀ u, ((s.goto t c.next).thread u).announcedAt = (s.thread u).announcedAt := by
    intro u
    by_cases hut : u = t
    · rw [hut, goto_thread_self]
    · rw [goto_thread_of_ne s hut]
  have he : Evolves s { s.goto t c.next with current := s.current + 1 } t :=
    ⟨by show s.current ≤ s.current + 1; omega, le_succ _,
      fun u id hu => .inl ⟨hreader u id hu, rfl, hat u⟩,
      fun u hu => goto_thread_of_ne s hu _, fun _ _ _ _ => rfl⟩
  have hids := h.ids.goto (l := { s.thread t with pc := c.next }) rfl
    (h.ids.registered t)
  refine ⟨⟨hids.lt, hids.inj, hids.free_lt, hids.free_nodup, hids.not_free, hids.count,
    hids.watermark_le, hids.registered⟩, ?_, fun u id hu => ?_, fun u => ?_, fun x => ?_⟩
  · have := h.current
    show 0 ≤ s.current + 1
    omega
  · have hge := hcas.2 rfl u id (hreader u id hu)
    obtain ⟨hnonneg, hle, -⟩ := h.reader u id (hreader u id hu)
    refine ⟨hnonneg, ?_, ?_⟩
    · show s.slots id ≤ s.current + 1
      omega
    · show s.current + 1 ≤ s.slots id + 1
      omega
  · by_cases hut : u = t
    · subst hut
      simp only [goto_thread_self]
      cases c <;> trivial
    · simp only [goto_thread_of_ne s hut]
      exact (h.pc u).evolve hut he
  · exact (h.node x).evolve he

theorem Inv.access (hs : access s t = some s') : Inv s' := by
  have hok := h.pc t
  cases hpc : (s.thread t).pc with
  | idle => simp [Ebr.access, hpc] at hs
  | gcStamp r readAt => simp [Ebr.access, hpc] at hs
  | gcFree safe => simp [Ebr.access, hpc] at hs
  | announceLoad =>
    cases hid : (s.thread t).id with
    | none => simp [Ebr.access, hpc, hid] at hs
    | some id =>
      cases by simpa [Ebr.access, hpc, hid] using hs
      exact h.goto (fun hp => absurd trivial hp) h.current
  | announceExchange e =>
    cases hid : (s.thread t).id with
    | none => simp [Ebr.access, hpc, hid] at hs
    | some id =>
      cases by simpa [Ebr.access, hpc, hid] using hs
      rw [hpc] at hok
      refine h.writeSlot hid hid (fun hact => hact.2 trivial) ⟨hok, fun i hi => ?_⟩
      simp only [put_thread_self] at hi
      cases hid.symm.trans hi
      exact update_self _ _ _
  | announceCheck e =>
    cases hid : (s.thread t).id with
    | none => simp [Ebr.access, hpc, hid] at hs
    | some id =>
      simp only [Ebr.access, hpc, hid] at hs
      split_ifs at hs with he <;> cases hs
      · rw [← hid]
        exact h.announced hpc he
      · exact h.goto (fun hp => absurd trivial hp) trivial
  | pushId id =>
    cases by simpa [Ebr.access, hpc] using hs
    exact h.pushId hpc
  | advanceLoad c =>
    cases by simpa [Ebr.access, hpc] using hs
    exact h.goto (fun _ => by rw [hpc]; exact not_false) (Int.le_refl _)
  | advanceWatermark c e =>
    cases by simpa [Ebr.access, hpc] using hs
    rw [hpc] at hok
    have hp : ¬ (Pc.advanceScan c e s.highWatermark 0).Announcing → ¬ (s.thread t).pc.Announcing :=
      fun _ => by rw [hpc]; exact not_false
    refine h.goto hp ⟨hok, fun _ u id hu _ => ⟨Nat.zero_le _, ?_⟩⟩
    exact h.ids.lt u id (Reader.of_goto hp hu).2
  | advanceScan c e n i =>
    rw [hpc] at hok
    have hout : ∀ p : Pc, ¬ p.Announcing → ¬ (s.thread t).pc.Announcing :=
      fun _ _ => by rw [hpc]; exact not_false
    simp only [Ebr.access, hpc] at hs
    split_ifs at hs with hi hlow <;> cases hs
    · refine h.goto (hout _) ?_
      cases c <;> trivial
    · refine h.goto (hout _) ⟨hok.1, fun he u id hu hlt => ?_⟩
      have hu' := Reader.of_goto (hout _) hu
      obtain ⟨hge, hlt'⟩ := hok.2 he u id hu' hlt
      refine ⟨?_, hlt'⟩
      by_contra hne
      obtain rfl : i = id := by omega
      have := (h.reader u i hu').1
      exact hlow ⟨by omega, hlt⟩
    · refine h.goto (hout _) ⟨hok.1, fun he u id hu => ?_⟩
      by_contra hlt
      have := hok.2 he u id (Reader.of_goto (hout _) hu) (Int.not_le.mp hlt)
      omega
  | advanceCas c e =>
    cases by simpa [Ebr.access, hpc] using hs
    by_cases he : s.current = e
    · rw [if_pos he, ← he]
      exact h.advanced (he ▸ hpc)
    · rw [if_neg he]
      refine h.goto (fun _ => by rw [hpc]; exact not_false) ?_
      cases c <;> trivial
  | gcEpoch =>
    cases by simpa [Ebr.access, hpc] using hs
    have hp : ¬ (Pc.gcStamp s.current s.now).Announcing → ¬ (s.thread t).pc.Announcing :=
      fun _ => by rw [hpc]; exact not_false
    exact h.goto hp ⟨Int.le_refl _, le_succ _, fun u id hu _ =>
      (h.reader u id (Reader.of_goto hp hu)).2.1⟩
  | gcSafe =>
    cases by simpa [Ebr.access, hpc] using hs
    exact h.goto (fun _ => by rw [hpc]; exact not_false) (Int.le_refl _)

end

section

omit [DecidableEq Thread]

theorem Inv.setMutex (h : Inv s) (m : Option Thread) : Inv { s with gcMutex := m } where
  ids := ⟨h.ids.lt, h.ids.inj, h.ids.free_lt, h.ids.free_nodup, h.ids.not_free, h.ids.count,
    h.ids.watermark_le, h.ids.registered⟩
  current := h.current
  reader := h.reader
  pc := fun t => by
    have := h.pc t
    revert this
    cases (s.thread t).pc <;> exact id
  node := h.node

theorem Inv.writeNode (h : Inv s) (x : ℕ) {n : Node} (hn : NodeOk s n) :
    Inv { s with nodes := update s.nodes x n } where
  ids := ⟨h.ids.lt, h.ids.inj, h.ids.free_lt, h.ids.free_nodup, h.ids.not_free, h.ids.count,
    h.ids.watermark_le, h.ids.registered⟩
  current := h.current
  reader := h.reader
  pc := fun t => by
    have := h.pc t
    revert this
    cases (s.thread t).pc <;> exact id
  node := fun y => by
    by_cases hy : y = x
    · subst hy
      simp only [update_self]
      exact hn
    · simp only [update_of_ne hy]
      exact h.node y

end

theorem inv_step {a : Act Thread} (h : Inv s) (hs : step s a = some s') : Inv s' := by
  cases a with
  | register t =>
    simp only [step, ite_none_right_eq_some, Option.some.injEq] at hs
    obtain ⟨⟨hid, hpc, hlive⟩, rfl⟩ := hs
    exact h.acquireId hid hpc hlive
  | exit t =>
    cases hid : (s.thread t).id with
    | none => simp [step, hid] at hs
    | some id =>
      simp only [step, hid, ite_none_right_eq_some, Option.some.injEq] at hs
      obtain ⟨⟨hpc, hnest⟩, rfl⟩ := hs
      refine h.writeSlot hid hid (fun hact => ?_) ?_
      · rw [hnest] at hact
        cases hact.1
      · simp [PcOk, hid, hnest]
  | guard t =>
    simp only [step, ite_none_right_eq_some, Option.some.injEq] at hs
    obtain ⟨⟨hid, hpc⟩, rfl⟩ := hs
    exact h.guard hid hpc
  | release t =>
    cases hid : (s.thread t).id with
    | none => simp [step, hid] at hs
    | some id =>
      simp only [step, hid, ite_none_right_eq_some, Option.some.injEq] at hs
      obtain ⟨⟨hpc, hnest⟩, rfl⟩ := hs
      rw [← hid]
      exact h.release hid hpc hnest
  | tryAdvance t =>
    simp only [step, ite_none_right_eq_some, Option.some.injEq] at hs
    obtain ⟨hpc, rfl⟩ := hs
    exact h.goto (fun _ => by rw [hpc]; exact not_false) trivial
  | collect t =>
    simp only [step, ite_none_right_eq_some, Option.some.injEq] at hs
    obtain ⟨⟨hpc, -⟩, rfl⟩ := hs
    have := h.goto (p := .gcEpoch) (fun _ => by rw [hpc]; exact not_false) trivial
    exact this.setMutex (some t)
  | access t => exact h.access hs
  | stamp t x =>
    cases hpc : (s.thread t).pc with
    | gcStamp r readAt =>
      simp only [step, hpc, ite_none_right_eq_some, Option.some.injEq] at hs
      obtain ⟨-, rfl⟩ := hs
      have hp : ¬ (Pc.gcStamp r readAt).Announcing → ¬ (s.thread t).pc.Announcing :=
        fun _ => by rw [hpc]; exact not_false
      have hok := h.pc t
      rw [hpc] at hok
      have hevolves : Evolves s (s.goto t (.gcStamp r readAt)) t :=
        evolves_put rfl (fun hact => ⟨hact.1, hp hact.2⟩) rfl
      have hstamp := hevolves.bounded hok.2.1 hok.2.2
      have hgoto := h.goto hp ⟨hok.1, le_succ_of_le hok.2.1, hstamp⟩
      exact hgoto.writeNode x fun _ => ⟨le_succ_of_le hok.2.1, hstamp⟩
    | _ => simp [step, hpc] at hs
  | stampDone t =>
    cases hpc : (s.thread t).pc with
    | gcStamp r readAt =>
      cases by simpa [step, hpc] using hs
      exact h.goto (fun _ => by rw [hpc]; exact not_false) trivial
    | _ => simp [step, hpc] at hs
  | free t x =>
    cases hpc : (s.thread t).pc with
    | gcFree safe =>
      simp only [step, hpc, ite_none_right_eq_some, Option.some.injEq] at hs
      obtain ⟨-, rfl⟩ := hs
      have hok := h.pc t
      rw [hpc] at hok
      have hgoto : Inv (s.goto t (.gcFree safe)) :=
        h.goto (fun _ => by rw [hpc]; exact not_false) hok
      exact hgoto.writeNode x (hgoto.node x)
    | _ => simp [step, hpc] at hs
  | collectDone t =>
    cases hpc : (s.thread t).pc with
    | gcFree safe =>
      cases by simpa [step, hpc] using hs
      have := h.goto (p := .idle) (fun _ => by rw [hpc]; exact not_false) trivial
      exact this.setMutex none
    | _ => simp [step, hpc] at hs

theorem inv_init : Inv (machine Thread).init where
  ids := ⟨nofun, nofun, by simp [machine], nodup_nil, nofun, rfl, Nat.zero_le _,
    fun _ h => absurd h (Nat.lt_irrefl 0)⟩
  current := Int.le_refl 0
  reader := fun _ _ h => absurd h.1.1 (Nat.lt_irrefl 0)
  pc := fun _ => trivial
  node := fun _ h => absurd h (show ¬ (0 : ℤ) ≤ -1 by decide)

theorem inv_reachable (h : (machine Thread).Reachable s) : Inv s :=
  h.invariant inv_init fun _ _ _ => inv_step

/-- The epoch stays within one of the announced ones, and a node is freed only when every
guard that was active as the collector read the epoch it stamped is gone. -/
theorem epoch_safe (Thread : Type) [DecidableEq Thread] {s : State Thread}
    (h : (machine Thread).Reachable s) :
    (∀ u id, Active s u → (s.thread u).id = some id → s.current ≤ s.slots id + 1) ∧
      ∀ t x s', step s (.free t x) = some s' → (s.nodes x).retired + 2 ≤ s.current ∧
        ∀ u, Active s u → ¬ (s.thread u).announcedAt < (s.nodes x).readAt := by
  have hinv := inv_reachable h
  refine ⟨fun u id hu hid => (hinv.reader u id ⟨hu, hid⟩).2.2, fun t x s' hs => ?_⟩
  have hok := hinv.pc t
  cases hpc : (s.thread t).pc with
  | gcFree safe =>
    simp only [step, hpc, ite_none_right_eq_some, Option.some.injEq] at hs
    obtain ⟨⟨hretired, hsafe, -⟩, -⟩ := hs
    rw [hpc] at hok
    have hle : safe ≤ s.current := hok
    refine ⟨by omega, fun u hu hlt => ?_⟩
    obtain ⟨id, hid⟩ := ne_none_iff_exists'.mp (hinv.ids.registered u hu.1)
    have hslot := (hinv.node x hretired).2 u id ⟨hu, hid⟩ hlt
    have := (hinv.reader u id ⟨hu, hid⟩).2.2
    omega
  | _ => simp [step, hpc] at hs

/-- The epoch advances after the collector read it, and a guard announces the new one
before the collector writes what it read into the node. -/
def lateStampRun : List (Act Bool) :=
  [.register true, .collect false, .access false, .tryAdvance true] ++
    List.replicate 5 (.access true) ++ [.guard true] ++ List.replicate 3 (.access true) ++
    [.stamp false 0, .stampDone false] ++ List.replicate 6 (.access false)

theorem lateStampRun_state : ∃ s s' : State Bool,
    (machine Bool).run (machine Bool).init lateStampRun = some s ∧
      step s (.free false 0) = some s' ∧ Active s true ∧
      (s.thread true).announcedAt < (s.nodes 0).stampedAt := by
  have hrun : (((machine Bool).run (machine Bool).init lateStampRun).map fun s =>
      ((s.thread true).nest, (s.thread true).pc, (step s (.free false 0)).isSome,
        decide ((s.thread true).announcedAt < (s.nodes 0).stampedAt))) =
      some (1, .idle, true, true) := by decide +kernel
  obtain ⟨s, hs, heq⟩ := map_eq_some_iff.mp hrun
  simp only [Prod.mk.injEq, decide_eq_true_eq] at heq
  obtain ⟨hnest, hpc, hfree, hlt⟩ := heq
  obtain ⟨s', hs'⟩ := isSome_iff_exists.mp hfree
  exact ⟨s, s', hs, hs', ⟨by rw [hnest]; exact Nat.one_pos, by rw [hpc]; exact not_false⟩, hlt⟩

theorem epoch_safe_lateStamp : ∃ s s' : State Bool,
    (machine Bool).run (machine Bool).init lateStampRun = some s ∧
      step s (.free false 0) = some s' ∧ (s.nodes 0).retired + 2 ≤ s.current ∧
      ∀ u, Active s u → ¬ (s.thread u).announcedAt < (s.nodes 0).readAt := by
  obtain ⟨s, s', hs, hs', -, -⟩ := lateStampRun_state
  exact ⟨s, s', hs, hs', (epoch_safe Bool (.run .init hs)).2 false 0 s' hs'⟩

/-- A guard announced after the collector read the epoch, but before it wrote the stamp,
can be active when the node is freed. -/
theorem guard_before_stamp_survives : ¬ ∀ s : State Bool, (machine Bool).Reachable s →
    (∀ u id, Active s u → (s.thread u).id = some id → s.current ≤ s.slots id + 1) ∧
      ∀ t x s', step s (.free t x) = some s' →
        ∀ u, Active s u → ¬ (s.thread u).announcedAt < (s.nodes x).stampedAt := by
  intro hall
  obtain ⟨s, s', hs, hs', hactive, hlt⟩ := lateStampRun_state
  exact (hall s (.run .init hs)).2 false 0 s' hs' true hactive hlt

end Equilibrium.Ebr
