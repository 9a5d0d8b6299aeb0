import Equilibrium.Containers.LockFreeOrderedMapSweeps
import Mathlib.Data.List.Perm.Basic

/-! The invariant of the map under any interleaving of the calls. -/

namespace Equilibrium.LockFreeOrderedHashMap

open Library.Interleaving Library.LinkedChain List

variable {Thread Key Value : Type} [Hashable Key] [DecidableEq Thread]
  {s s' : State Thread Key Value} {t : Thread}

theorem moves_access [DecidableEq Key] (hm : Mem s) (hok : s.PcOk (s.thread t)) {choice : Bool}
    (h : access s t choice = some s') : ∃ pc', Moves s s' t (s.thread t) pc' := by
  obtain ⟨pc, hpc⟩ : ∃ pc, s.thread t = pc := ⟨_, rfl⟩
  cases pc with
  | idle reply =>
    simp only [access, hpc] at h
    cases h
  | loadHead op key => exact moves_loadHead hok h hm hpc
  | loadDeleted op key x =>
    cases op with
    | search draft => exact moves_search hok h hm hpc
    | scan new => exact moves_scan hok h hpc
    | find => exact moves_find hok h hpc
    | remove =>
      rw [hpc] at hok
      exact hok.elim
  | loadNext op key x => exact moves_loadNext hok h hm hpc
  | construct key value => exact moves_construct h hm hpc
  | loadOldHead key new =>
    simp only [access, hpc] at h
    rw [hpc] at hok ⊢
    cases h
    exact exists_goto (.storeNext key new _) hok rfl (.keep rfl rfl)
  | storeNext key new oldHead => exact moves_storeNext hok h hpc
  | publish key new oldHead => exact moves_publish hok h hm hpc
  | giveUp key new => exact moves_giveUp hok h hpc
  | mark key x => exact moves_mark hok h hpc
  | unlinkHead after node => exact moves_unlinkHead hok h hm hpc
  | unlinkStep after node y => exact moves_unlinkStep hok h hm hpc
  | unlinkNext after node prev =>
    simp only [access, hpc] at h
    rw [hpc] at hok ⊢
    cases h
    obtain ⟨hafter, hnode, hmark, hprev⟩ := hok
    exact exists_goto (.unlinkExchange after node prev _)
      ⟨hafter, hnode, hmark, hprev, fun b hb => hm.buckets.next b node hb⟩ rfl (.keep rfl rfl)
  | unlinkExchange after node prev next => exact moves_unlinkExchange hok h hm hpc
  | loadStaging key new live =>
    simp only [access, hpc] at h
    rw [hpc] at hok ⊢
    cases h
    cases live <;> exact exists_goto _ hok rfl (.keep rfl rfl)
  | exchangeStaging key new live head => exact moves_exchangeStaging hok h hm hpc
  | resetOrder key new => exact moves_resetOrder hok h hm hpc
  | loadTail key new => exact moves_loadTail hok h hm hpc
  | exchangeHead key new => exact moves_exchangeHead hok h hpc
  | initTail key new => exact moves_initTail hok h hm hpc
  | loadOrderNext key new tail => exact moves_loadOrderNext hok h hm hpc
  | reloadTail key new tail next => exact moves_reloadTail hok h hpc
  | helpTail key new tail next => exact moves_helpTail hok h hm hpc
  | append key new tail => exact moves_append hok h hpc
  | advanceTail key new tail => exact moves_advanceTail hok h hm hpc
  | postMutate key removed =>
    simp only [access, hpc] at h
    rw [hpc] at hok ⊢
    have hcaller : s.CallerOk (.remove key removed) := hok
    split at h
    · rename_i hcond
      cases h
      refine ⟨_, rfl, .read, ⟨hcaller, trivial⟩, .keep none, .inl rfl, ?_,
        .quiet rfl rfl rfl rfl (.inl rfl), .keep rfl rfl⟩
      rw [hcond.2]
      exact .lock
    · cases h
      exact moves_finish hcaller ⟨rfl, rfl, rfl⟩ (.keep _ _)
  | gc caller pc =>
    simp only [access, hpc] at h
    rw [hpc] at hok ⊢
    exact moves_accessGc hm hok h

/-- What holds in every state. -/
structure Inv (s : State Thread Key Value) : Prop extends Mem s where
  count : 0 < s.map.bucketCount
  places : ∀ t, s.PcOk (s.thread t)
  owner : ∀ t u x, (s.thread t).own = some x → (s.thread u).own = some x → t = u
  mutex : ∀ t, (s.thread t).collects = true → s.gcMutex = some t
  live : ∀ x ∈ s.published, s.map.Undeleted x → x ∈ s.appended ∨ ∃ t, (s.thread t).own = some x
  older : ∀ x ∈ s.appended, ∀ key, s.map.Keyed key x → s.NoOlder key x

omit [DecidableEq Thread] in
/-- The node that a thread inserts has been made. -/
theorem own_node (hm : Mem s) {pc : Pc Key Value} (hok : s.PcOk pc) {x : ℕ}
    (hx : pc.own = some x) : ∃ n, s.map.nodes x = some n := by
  have hdraft : ∀ {key : Key} {draft : Draft Value}, s.DraftOk key draft → draft.own = some x →
      ∃ n, s.map.nodes x = some n := by
    intro key draft h hown
    cases draft with
    | value v => cases hown
    | node new =>
      cases hown
      obtain ⟨-, v, p, hn⟩ := h
      exact ⟨_, hn⟩
  have howned : ∀ {key : Key}, s.Owned key x → ∃ n, s.map.nodes x = some n := fun h =>
    hm.node x h.1
  have hpending : ∀ {key : Key}, s.Pending key x → ∃ n, s.map.nodes x = some n := by
    rintro key ⟨-, v, p, hn⟩
    exact ⟨_, hn⟩
  cases pc with
  | loadHead op key =>
    cases op with
    | search draft => exact hdraft hok hx
    | scan new => exact hok.elim
    | find => cases hx
    | remove => cases hx
  | loadDeleted op key y =>
    cases op with
    | search draft => exact hdraft hok.1 hx
    | scan new =>
      cases hx
      exact howned hok.1
    | find => cases hx
    | remove => cases hx
  | loadNext op key y =>
    cases op with
    | search draft => exact hdraft hok.1 hx
    | scan new =>
      cases hx
      exact howned hok.1
    | find => cases hx
    | remove => cases hx
  | loadOldHead key new =>
    cases hx
    exact hpending hok
  | storeNext key new oldHead =>
    cases hx
    exact hpending hok
  | publish key new oldHead =>
    cases hx
    exact hpending hok.1
  | giveUp key new =>
    cases hx
    exact howned hok
  | unlinkHead after node => exact resumeOk_node hok.1 hx
  | unlinkStep after node y => exact resumeOk_node hok.1 hx
  | unlinkNext after node prev => exact resumeOk_node hok.1 hx
  | unlinkExchange after node prev next => exact resumeOk_node hok.1 hx
  | loadStaging key new live =>
    cases hx
    cases live with
    | true => exact howned hok.1
    | false => exact hm.node x hok.1.1
  | exchangeStaging key new live head =>
    cases hx
    cases live with
    | true => exact howned hok.1
    | false => exact hm.node x hok.1.1
  | resetOrder key new =>
    cases hx
    exact howned hok.1
  | loadTail key new =>
    cases hx
    exact howned hok.1
  | exchangeHead key new =>
    cases hx
    exact howned hok.1
  | initTail key new =>
    cases hx
    exact hm.node x (hm.appended x hok.1)
  | loadOrderNext key new tail =>
    cases hx
    exact howned hok.1.1
  | reloadTail key new tail next =>
    cases hx
    exact howned hok.1.1
  | helpTail key new tail next =>
    cases hx
    exact howned hok.1.1
  | append key new tail =>
    cases hx
    exact howned hok.1.1
  | advanceTail key new tail =>
    cases hx
    exact hm.node x (hm.appended x hok.1.1)
  | idle reply => cases hx
  | construct key value => cases hx
  | mark key y => cases hx
  | postMutate key removed => cases hx
  | gc caller pc => cases hx

namespace Inv

variable {pc' : Pc Key Value}

theorem thread_other (h : Moves s s' t (s.thread t) pc') {u : Thread} (hu : u ≠ t) :
    s'.thread u = s.thread u := by
  rw [h.thread, Function.update_of_ne hu]

theorem thread_self (h : Moves s s' t (s.thread t) pc') : s'.thread t = pc' := by
  rw [h.thread, Function.update_self]

theorem sound (hi : Inv s) (h : Moves s s' t (s.thread t) pc') : Sound s s' (s.thread t) :=
  h.effect.sound hi.toMem

theorem sparesOther (hi : Inv s) (h : Moves s s' t (s.thread t) pc') {u : Thread} (hu : u ≠ t)
    {x : ℕ} (hx : (s.thread u).own = some x) : Spares s s' x :=
  (hi.sound h).spares x (own_node hi.toMem (hi.places u) hx) fun ht => hu (hi.owner u t x hx ht)

theorem own_self (h : Moves s s' t (s.thread t) pc') {x : ℕ} (hx : (s'.thread t).own = some x) :
    (s.thread t).own = some x ∨ (s.thread t).own = none ∧ x = s.map.allocated := by
  rw [thread_self h] at hx
  have hown := h.own
  generalize (s.thread t).own = own at hown ⊢
  rw [hx] at hown
  cases hown with
  | keep => exact .inl rfl
  | make => exact .inr ⟨rfl, rfl⟩

theorem moves (hi : Inv s) (h : Moves s s' t (s.thread t) pc') : Inv s' := by
  have hs := hi.sound h
  have hself := thread_self h
  refine ⟨hs.mem, hs.frame.chain.count ▸ hi.count, fun u => ?_, fun u v x hu hv => ?_, fun u hu => ?_, fun x hx hlive => ?_,
    fun x hx key hkey => ?_⟩
  · by_cases hut : u = t
    · rw [hut, hself]
      exact h.placed
    · rw [thread_other h hut]
      refine (hi.places u).frame hs.frame hi.toMem (fun x hx => hi.sparesOther h hut hx)
        fun hu => hs.order ?_
      cases ht : (s.thread t).collects with
      | false => rfl
      | true => exact absurd (Option.some.inj ((hi.mutex u hu).symm.trans (hi.mutex t ht))) hut
  · have hnew : ∀ {u}, u ≠ t → (s'.thread u).own = some x → (s'.thread t).own ≠ some x := by
      intro u hut hu ht
      rw [thread_other h hut] at hu
      rcases own_self h ht with ht | ⟨-, rfl⟩
      · exact hut (hi.owner u t x hu ht)
      · obtain ⟨n, hn⟩ := own_node hi.toMem (hi.places u) hu
        exact Nat.lt_irrefl _ (hi.bounded _ n hn)
    by_cases hut : u = t
    · by_cases hvt : v = t
      · exact hut.trans hvt.symm
      · exact absurd (hut ▸ hu) (hnew hvt hv)
    · by_cases hvt : v = t
      · exact absurd (hvt ▸ hv) (hnew hut hu)
      · rw [thread_other h hut] at hu
        rw [thread_other h hvt] at hv
        exact hi.owner u v x hu hv
  · have hmutex := h.mutex
    have hold := hi.mutex
    by_cases hut : u = t
    · subst hut
      rw [hself] at hu
      have hkept := hold u
      generalize s.gcMutex = g, s'.gcMutex = g', (s.thread u).collects = c at hmutex hkept ⊢
      rw [hu] at hmutex
      cases hmutex with
      | keep => exact hkept rfl
      | lock => rfl
    · rw [thread_other h hut] at hu
      have hold' := hold u hu
      have hkept := hold t
      generalize s.gcMutex = g, s'.gcMutex = g', (s.thread t).collects = c, pc'.collects = c'
        at hmutex hold' hkept ⊢
      cases hmutex with
      | keep => exact hold'
      | lock => cases hold'
      | unlock => exact absurd (Option.some.inj (hold'.symm.trans (hkept rfl))) hut
  · have hcase : x ∈ s'.appended ∨ ∃ u, (s.thread u).own = some x := by
      rcases h.effect.published with hpub | ⟨key, y, hpub, hy, -⟩
      · rw [hpub] at hx
        exact (hi.live x hx (hs.frame.undeleted hi.toMem hx hlive)).imp_left hs.frame.memAppended
      · rw [hpub, mem_append, mem_singleton] at hx
        rcases hx with hx | rfl
        · exact (hi.live x hx (hs.frame.undeleted hi.toMem hx hlive)).imp_left hs.frame.memAppended
        · exact .inr ⟨t, hy⟩
    rcases hcase with happ | ⟨u, hu⟩
    · exact .inl happ
    · by_cases hut : u = t
      · subst hut
        have hown := h.own
        rw [← hself] at hown
        generalize hold : (s.thread u).own = own, hnew : (s'.thread u).own = own' at hown
        rw [hold] at hu
        cases hown with
        | keep => exact .inr ⟨u, hnew.trans hu⟩
        | leave _ hleave =>
          rcases hleave x hu with hno | hmark | happ
          · exact absurd hx hno
          · exact absurd hlive hmark.not_undeleted
          · exact .inl happ
        | make => cases hu
      · exact .inr ⟨u, by rw [thread_other h hut]; exact hu⟩
  · have hold : x ∈ s.published ∧ ∃ key', s.map.Keyed key' x ∧ s.NoOlder key' x := by
      rcases h.effect.appended with happ | ⟨key', y, happ, -, -, hy, hno⟩
      · rw [happ] at hx
        have hmem := hi.appended x hx
        obtain ⟨n, hn⟩ := hi.node x hmem
        exact ⟨hmem, n.key, ⟨n, hn, rfl⟩, hi.older x hx n.key ⟨n, hn, rfl⟩⟩
      · rw [happ, mem_append, mem_singleton] at hx
        rcases hx with hx | rfl
        · have hmem := hi.appended x hx
          obtain ⟨n, hn⟩ := hi.node x hmem
          exact ⟨hmem, n.key, ⟨n, hn, rfl⟩, hi.older x hx n.key ⟨n, hn, rfl⟩⟩
        · obtain ⟨n, hn, hkey', -⟩ := hy.2.2
          exact ⟨hy.1, key', ⟨n, hn, hkey'⟩, hno⟩
    obtain ⟨hmem, key', hkey', hno⟩ := hold
    obtain rfl : key' = key := (hs.frame.keyed hkey').unique hkey
    exact hs.frame.noOlder hi.toMem hmem hno

section

omit [DecidableEq Thread]

theorem live_unique (hi : Inv s) {key : Key} {x y : ℕ} (hx : x ∈ s.appended)
    (hy : y ∈ s.appended) (hxkey : s.map.Keyed key x) (hykey : s.map.Keyed key y)
    (hxlive : s.map.Undeleted x) (hylive : s.map.Undeleted y) : x = y := by
  have hxpub := hi.appended x hx
  have hypub := hi.appended y hy
  rcases Int.lt_trichotomy (rank s.published x) (rank s.published y) with hlt | heq | hlt
  · exact absurd hxlive (hi.older y hy key hykey x ⟨hxpub, hxkey, hlt⟩)
  · exact rank_inj hxpub heq
  · exact absurd hylive (hi.older x hx key hxkey y ⟨hypub, hykey, hlt⟩)

theorem tryAdvance (hi : Inv s) : Inv { s with epoch := s.epoch + 1 } :=
  ⟨⟨hi.bounded, hi.node, hi.published, hi.buckets, hi.order, hi.appended, hi.staging,
    hi.allNodes⟩, hi.count, fun t => (hi.places t).frame
      ⟨.refl _ _, prefix_refl _, fun _ ht => ht.2⟩ hi.toMem
      (fun _ _ => ⟨fun hx => ⟨hx, rfl⟩, fun hx => ⟨hx, fun n hn => ⟨n, hn, rfl, rfl⟩⟩⟩)
      fun _ => ⟨fun _ _ _ hy => hy, fun _ _ hr => hr⟩, hi.owner, hi.mutex, hi.live, hi.older⟩

end

end Inv

def Act.thread : Act Thread Key Value → Option Thread
  | .insert t _ _ => some t
  | .remove t _ => some t
  | .find t _ => some t
  | .collectGarbage t => some t
  | .access t _ => some t
  | .tryAdvance => none

section Step

variable [DecidableEq Key] {a : Act Thread Key Value}

omit [DecidableEq Key] in
/-- A call begins. -/
theorem moves_begin {pc : Pc Key Value} (hok : s.PcOk pc)
    (hholds : pc.holds = (none, none, false, false, false))
    (h : (match s.thread t with
      | .idle _ => some (s.goto t pc)
      | _ => none) = some s') : ∃ reply, s.thread t = .idle reply ∧ s' = s.goto t pc ∧
        Moves s s' t (.idle reply) pc := by
  cases hpc : s.thread t with
  | idle reply =>
    rw [hpc] at h
    cases h
    exact ⟨reply, rfl, rfl, moves_goto hok hholds (.begins reply rfl)⟩
  | _ =>
    rw [hpc] at h
    cases h

theorem step_moves (hi : Inv s) (h : step s a = some s') :
    (∃ t pc', a.thread = some t ∧ Moves s s' t (s.thread t) pc') ∨
      a = .tryAdvance ∧ s' = { s with epoch := s.epoch + 1 } := by
  cases a with
  | insert t key value =>
    obtain ⟨reply, hpc, -, hmoves⟩ := moves_begin (by exact trivial) rfl h
    exact .inl ⟨t, _, rfl, hpc ▸ hmoves⟩
  | remove t key =>
    obtain ⟨reply, hpc, -, hmoves⟩ := moves_begin (by exact trivial) rfl h
    exact .inl ⟨t, _, rfl, hpc ▸ hmoves⟩
  | find t key =>
    obtain ⟨reply, hpc, -, hmoves⟩ := moves_begin (by exact trivial) rfl h
    exact .inl ⟨t, _, rfl, hpc ▸ hmoves⟩
  | collectGarbage t =>
    obtain ⟨reply, hpc, -, hmoves⟩ := moves_begin (by exact ⟨trivial, trivial⟩) rfl h
    exact .inl ⟨t, _, rfl, hpc ▸ hmoves⟩
  | access t choice =>
    obtain ⟨pc', hmoves⟩ := moves_access hi.toMem (hi.places t) h
    exact .inl ⟨t, pc', rfl, hmoves⟩
  | tryAdvance => exact .inr ⟨rfl, (Option.some.inj h).symm⟩

theorem Inv.step_frame (hi : Inv s) (h : step s a = some s') : Frame s s' := by
  rcases step_moves hi h with ⟨t, pc', -, hmoves⟩ | ⟨-, rfl⟩
  · exact (hi.sound hmoves).frame
  · exact ⟨.refl _ _, prefix_refl _, fun _ ht => ht.2⟩

theorem Inv.step (hi : Inv s) (h : step s a = some s') : Inv s' := by
  rcases step_moves hi h with ⟨t, pc', -, hmoves⟩ | ⟨-, rfl⟩
  · exact hi.moves hmoves
  · exact hi.tryAdvance

theorem inv_init (count : ℕ) : Inv (machine Thread Key Value count).init := by
  have hlead : ∀ b r, Leads (construct count : Map Key Value) [] b r none := fun b r =>
    ⟨below_none, fun z hz => absurd hz.1 not_mem_nil⟩
  refine ⟨⟨fun x n hn => absurd hn nofun, fun x hx => absurd hx not_mem_nil, nodup_nil,
    ⟨fun b => hlead b _, fun b x hx => absurd hx.1 not_mem_nil⟩,
    ⟨nodup_nil, ⟨below_none, fun z hz => absurd hz.1 not_mem_nil⟩,
      fun x hx => absurd hx not_mem_nil, fun _ => rfl, fun x hx => absurd hx not_mem_nil,
      fun _ => Nat.zero_le _, nofun⟩,
    fun x hx => absurd hx not_mem_nil, fun x hx => absurd hx not_mem_nil,
    fun x hx => absurd hx not_mem_nil⟩, ?_, fun t => trivial, fun t u x hx => absurd hx nofun,
    fun t ht => absurd ht nofun, fun x hx => absurd hx not_mem_nil,
    fun x hx => absurd hx not_mem_nil⟩
  show 0 < if count > 0 then count else 1
  split <;> omega

theorem reachable_inv {count : ℕ} (h : (machine Thread Key Value count).Reachable s) : Inv s :=
  h.invariant (inv_init count) fun _ _ _ hi hs => hi.step hs

variable {count : ℕ} (e : Execution (machine Thread Key Value count))

theorem inv_state (i : ℕ) : Inv (e.state i) := reachable_inv (e.reachable i)

theorem frame_le {i j : ℕ} (hij : i ≤ j) : Frame (e.state i) (e.state j) := by
  induction j, hij using Nat.le_induction with
  | base => exact ⟨.refl _ _, prefix_refl _, fun _ ht => ht.2⟩
  | succ j _ ih =>
    rcases e.next_cases j with heq | ⟨a, -, hs⟩
    · rw [heq]
      exact ih
    · exact ih.trans (inv_state e j).toMem ((inv_state e j).step_frame hs)

theorem thread_next (t : Thread) (i : ℕ) : (e.state (i + 1)).thread t = (e.state i).thread t ∨
      ∃ pc' a, e.act i = some a ∧ a.thread = some t ∧
        Moves (e.state i) (e.state (i + 1)) t ((e.state i).thread t) pc' := by
  rcases e.next_cases i with heq | ⟨a, ha, hs⟩
  · rw [heq]
    exact .inl rfl
  · rcases step_moves (inv_state e i) hs with ⟨u, pc', hu, hmoves⟩ | ⟨-, hs⟩
    · by_cases hut : t = u
      · subst hut
        exact .inr ⟨pc', a, ha, hu, hmoves⟩
      · exact .inl (Inv.thread_other hmoves hut)
    · rw [hs]
      exact .inl rfl

end Step

/-! The order list against the buckets when no call is under way, and the order of the
nodes of two insertions that follow each other. -/

variable {Thread Key Value : Type}

def Quiescent (s : State Thread Key Value) : Prop := ∀ t, ∃ reply, s.thread t = .idle reply

/-- The order list has the undeleted nodes of the buckets, and each of them once. -/
def OrderAgrees (m : Map Key Value) : Prop :=
  ∃ (l : List ℕ) (chains : ℕ → List ℕ), Segment m.orderNext m.orderHead l none ∧ l.Nodup ∧
    (∀ b, Segment m.bucketNext (m.buckets b) (chains b) none) ∧
    (l.filter fun x => !m.marked x).Perm
      (((List.range m.bucketCount).flatMap chains).filter fun x => !m.marked x)

section Lists

variable [Hashable Key] {s : State Thread Key Value}

theorem Mem.orderList (hm : Mem s) : ∃ l, Segment s.map.orderNext s.map.orderHead l none :=
  hm.order.descends.exists_segment (fun _ hx => Int.le_of_lt (lt_place hx)) hm.order.head.below

theorem Mem.chain (hm : Mem s) (b : ℕ) : ∃ l, Segment s.map.bucketNext (s.map.buckets b) l none :=
  (hm.buckets.descends b).exists_segment (fun x _ => rank_nonneg s.published x)
    (hm.buckets.head b).below

theorem Mem.mem_chain (hm : Mem s) {b : ℕ} {l : List ℕ}
    (hl : Segment s.map.bucketNext (s.map.buckets b) l none) {x : ℕ} (hx : x ∈ l) :
    In s.map s.published b x :=
  ((hl.reach_iff.mpr hx).lower (hm.buckets.descends b) (hm.buckets.head b).below).1

omit [Hashable Key] in
theorem undeleted_iff {m : Map Key Value} {x : ℕ} (hx : ∃ n, m.nodes x = some n) :
    (!m.marked x) = true ↔ m.Undeleted x := by
  obtain ⟨n, hn⟩ := hx
  rw [Bool.not_eq_true', Bool.eq_false_iff, Ne, Map.marked_eq_true]
  exact ⟨fun h => (Map.marked_or_undeleted hn).resolve_left h, fun h hmark => hmark.not_undeleted h⟩

theorem Inv.appended_of_undeleted (hi : Inv s) (hq : Quiescent s) {x : ℕ} (hx : x ∈ s.published)
    (hlive : s.map.Undeleted x) : x ∈ s.appended := by
  refine (hi.live x hx hlive).resolve_right ?_
  rintro ⟨t, ht⟩
  obtain ⟨reply, hreply⟩ := hq t
  rw [hreply] at ht
  cases ht

theorem Inv.orderAgrees (hi : Inv s) (hq : Quiescent s) : OrderAgrees s.map := by
  obtain ⟨l, hl⟩ := hi.orderList
  choose chains hchains using hi.chain
  refine ⟨l, chains, hl, hl.nodup, hchains, ?_⟩
  have hdisjoint : List.Pairwise (Function.onFun List.Disjoint chains)
      (range s.map.bucketCount) := by
    refine nodup_range.imp fun {a b} hab x ha hb => hab ?_
    exact (hi.mem_chain (hchains a) ha).unique (hi.mem_chain (hchains b) hb)
  have hnodup : ((range s.map.bucketCount).flatMap chains).Nodup :=
    nodup_flatMap.mpr ⟨fun b _ => (hchains b).nodup, hdisjoint⟩
  refine (perm_ext_iff_of_nodup (hl.nodup.filter _) (hnodup.filter _)).mpr fun x => ?_
  simp only [mem_filter, mem_flatMap, mem_range]
  refine and_congr_left fun hmark => ⟨fun hx => ?_, ?_⟩
  · have happ := ((hl.reach_iff.mpr hx).lower hi.order.descends hi.order.head.below).1
    have hpub := hi.appended x happ
    obtain ⟨n, hn⟩ := hi.node x hpub
    refine ⟨s.map.hashKey n.key, Nat.mod_lt _ hi.count, ?_⟩
    exact (hchains _).reach_iff.mp ((hi.buckets.head _).reach x ⟨hpub, n, hn, rfl⟩
      ((undeleted_iff ⟨n, hn⟩).mp hmark) (rank_lt hpub))
  · rintro ⟨b, -, hx⟩
    have hpub := (hi.mem_chain (hchains b) hx).1
    have hlive := (undeleted_iff (hi.node x hpub)).mp hmark
    have happ := hi.appended_of_undeleted hq hpub hlive
    have hlow := place_nonpos s.appended x
    exact hl.reach_iff.mp (hi.order.head.reach x ⟨happ, .inl hlive⟩ (by omega))

end Lists

section Calls

variable [Hashable Key] [DecidableEq Key] [DecidableEq Thread] {count : ℕ}
  (e : Execution (machine Thread Key Value count))

/-- Thread `t` calls `insert` at instant `i`, and the call returns `true` in the step from
instant `j`, having inserted the node `x`. -/
structure InsertCall (t : Thread) (key : Key) (value : Value) (i j x : ℕ) : Prop where
  call : e.act i = some (.insert t key value)
  lt : i < j
  busy : ∀ m, i < m → m ≤ j → ∀ r, (e.state m).thread t ≠ .idle r
  node : ((e.state j).thread t).own = some x
  returned : (e.state (j + 1)).thread t = .idle .inserted

variable {t : Thread} {key : Key} {value : Value} {i : ℕ}

theorem insert_start (h : e.act i = some (.insert t key value)) :
    (e.state (i + 1)).thread t = .loadHead (.search (.value value)) key := by
  have hs := e.next_some h
  simp only [machine, step] at hs
  split at hs
  · rw [← Option.some.inj hs]
    exact Function.update_self _ _ _
  · cases hs

variable {j x : ℕ}

theorem own_new (hstart : ((e.state (i + 1)).thread t).own = none) (hij : i < j)
    (hx : ((e.state j).thread t).own = some x) : (e.state i).map.nodes x = none := by
  induction j, hij using Nat.le_induction with
  | base => cases hstart.symm.trans hx
  | succ j hij ih =>
    rcases thread_next e t j with heq | ⟨pc', -, -, -, hmoves⟩
    · rw [heq] at hx
      exact ih hx
    · rcases Inv.own_self hmoves hx with hx | ⟨-, rfl⟩
      · exact ih hx
      · cases hn : (e.state i).map.nodes (e.state j).map.allocated with
        | none => rfl
        | some n =>
          obtain ⟨n', hn', -⟩ := (frame_le e (Nat.le_of_lt hij)).chain.node _ n hn
          exact absurd ((inv_state e j).bounded _ n' hn') (Nat.lt_irrefl _)

variable {e}

theorem InsertCall.node_new {t : Thread} {key : Key} {value : Value} {i j x : ℕ}
    (h : InsertCall e t key value i j x) : (e.state i).map.nodes x = none := by
  refine own_new e ?_ h.lt h.node
  rw [insert_start e h.call]
  rfl

theorem InsertCall.appended (h : InsertCall e t key value i j x) : x ∈ (e.state j).appended := by
  rcases thread_next e t j with heq | ⟨pc', -, -, -, hmoves⟩
  · exact absurd (heq.symm.trans h.returned) (h.busy j h.lt (Nat.le_refl j) _)
  · have hpc' : pc' = .idle .inserted := (Inv.thread_self hmoves).symm.trans h.returned
    cases hmoves.report with
    | quiet _ _ _ hsucceeded =>
      rw [hpc'] at hsucceeded
      cases hsucceeded
    | took _ _ _ _ _ ht =>
      rw [hpc'] at ht
      cases ht
    | inserted key' y hown _ hy =>
      rw [h.node] at hown
      cases hown
      exact hy
    | removed _ _ _ _ _ hpc =>
      rw [hpc'] at hpc
      cases hpc

theorem InsertCall.earlier {u : Thread} {key' : Key} {value' : Value} {i' j' y : ℕ}
    (h : InsertCall e t key value i j x) (h' : InsertCall e u key' value' i' j' y) (hlt : j < i')
    {n : ℕ} {l : List ℕ} (hl : Segment (e.state n).map.orderNext (e.state n).map.orderHead l none)
    (hx : x ∈ l) (hy : y ∈ l) : List.Sublist [x, y] l := by
  have hm := (inv_state e n).toMem
  have hin : ∀ z ∈ l, z ∈ (e.state n).appended := fun z hz =>
    ((hl.reach_iff.mpr hz).lower hm.order.descends hm.order.head.below).1
  have hnew : ∀ k ≤ i', y ∉ (e.state k).appended := by
    intro k hk happ
    obtain ⟨v, hv⟩ := (inv_state e k).node y ((inv_state e k).appended y happ)
    obtain ⟨v', hv', -⟩ := (frame_le e hk).chain.node y v hv
    cases h'.node_new.symm.trans hv'
  rcases Nat.le_total n i' with hn | hn
  · exact absurd (hin y hy) (hnew n hn)
  · refine hl.earlier hm.order.descends hm.order.head.below hx hy ?_
    exact place_lt_of_prefix (frame_le e hn).appended
      ((frame_le e (Nat.le_of_lt hlt)).memAppended h.appended) (hnew i' (Nat.le_refl i'))

variable (e)

/-- When no call is under way the order list has what the buckets have, and at any time it
has the nodes of insertions that follow each other in that order. -/
theorem order_list_agrees : (∀ n, Quiescent (e.state n) → OrderAgrees (e.state n).map) ∧
      ∀ t key value i j x u key' value' i' j' y, InsertCall e t key value i j x →
        InsertCall e u key' value' i' j' y → j < i' → ∀ n l,
        Segment (e.state n).map.orderNext (e.state n).map.orderHead l none → x ∈ l → y ∈ l →
        List.Sublist [x, y] l :=
  ⟨fun n hq => (inv_state e n).orderAgrees hq,
    fun _ _ _ _ _ _ _ _ _ _ _ _ h h' hlt _ _ hl hx hy => h.earlier h' hlt hl hx hy⟩

end Calls

def Pc.idles : Pc Key Value → Bool
  | .idle _ => true
  | _ => false

theorem Pc.ne_idle {pc : Pc Key Value} (h : pc.idles = false) (r : Reply Value) : pc ≠ .idle r := by
  rintro rfl
  cases h

def twoInsertsRun : List (Act (Fin 2) ℕ ℕ) :=
  .insert 0 1 10 :: List.replicate 12 (.access 0 false) ++
    .insert 1 2 20 :: List.replicate 14 (.access 1 false)

theorem twoInsertsRun_runs :
    ((machine (Fin 2) ℕ ℕ 2).run (machine (Fin 2) ℕ ℕ 2).init twoInsertsRun).isSome := by
  decide

def twoInserts : Execution (machine (Fin 2) ℕ ℕ 2) := .ofRun twoInsertsRun twoInsertsRun_runs

theorem twoInserts_first : InsertCall twoInserts 0 1 10 0 12 0 := by
  refine ⟨rfl, by decide, fun m hm hmj => Pc.ne_idle ?_, by decide, by decide⟩
  have hidles : ∀ m ≤ 12, 0 < m → ((twoInserts.state m).thread 0).idles = false := by decide
  exact hidles m hmj hm

theorem twoInserts_second : InsertCall twoInserts 1 2 20 13 27 1 := by
  refine ⟨rfl, by decide, fun m hm hmj => Pc.ne_idle ?_, by decide, by decide⟩
  have hidles : ∀ m ≤ 27, 13 < m → ((twoInserts.state m).thread 1).idles = false := by decide
  exact hidles m hmj hm

theorem twoInserts_quiescent : Quiescent (twoInserts.state 28) := fun t => by
  have h : ∀ t, (twoInserts.state 28).thread t = .idle .inserted := by decide
  exact ⟨.inserted, h t⟩

theorem order_list_agrees_two : OrderAgrees (twoInserts.state 28).map ∧
    ∃ l, Segment (twoInserts.state 28).map.orderNext (twoInserts.state 28).map.orderHead l none ∧
      List.Sublist [0, 1] l := by
  have hl : Segment (twoInserts.state 28).map.orderNext (twoInserts.state 28).map.orderHead [0, 1]
      none := by
    refine ⟨by decide, by decide, segment_nil.mpr ?_⟩
    decide
  refine ⟨(order_list_agrees twoInserts).1 28 twoInserts_quiescent, [0, 1], hl, ?_⟩
  exact (order_list_agrees twoInserts).2 0 1 10 0 12 0 1 2 20 13 27 1 twoInserts_first
    twoInserts_second (by decide) 28 [0, 1] hl (by decide) (by decide)

end Equilibrium.LockFreeOrderedHashMap
