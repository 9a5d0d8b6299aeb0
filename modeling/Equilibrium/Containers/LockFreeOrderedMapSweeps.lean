import Equilibrium.Containers.LockFreeOrderedMapSteps

/-! What an access of the collector does, and the return of a call that removed or
collected. -/

namespace Equilibrium.LockFreeOrderedHashMap

open Library.Interleaving Library.LinkedChain

variable {Thread Key Value : Type} [Hashable Key] [DecidableEq Thread]
  {s s' : State Thread Key Value} {t : Thread}

variable {caller : Caller Key} {pc : GcPc}

theorem moves_gc {pc' : GcPc} (hcaller : s.CallerOk caller) (hok : s.GcOk pc')
    (hpc : (Pc.gc caller pc : Pc Key Value).collects = true)
    (hpc' : (Pc.gc caller pc' : Pc Key Value).collects = true) :
    Moves s (s.goto t (.gc caller pc')) t (.gc caller pc) (.gc caller pc') := by
  refine moves_goto ⟨hcaller, hok⟩ ?_ (.keep rfl rfl)
  rw [hpc, Pc.holds, hpc']
  rfl

theorem moves_finish (h : s.CallerOk caller) {pc : Pc Key Value} {m : Option Thread}
    (hpc : pc.own = none ∧ pc.taken = caller.taken ∧ pc.backsOff = false)
    (hmutex : MutexStep t s.gcMutex m pc.collects false) :
    ∃ pc', Moves s (({ s with gcMutex := m } : State Thread Key Value).finish t caller) t pc pc' := by
  obtain ⟨hown, htaken, hbacks⟩ := hpc
  cases caller with
  | collect =>
    refine ⟨.idle .done, rfl, .read, trivial, ?_, .inl hbacks.symm, hmutex,
      .quiet rfl rfl htaken.symm rfl (.inl hown),
      .returns _ rfl⟩
    rw [hown]
    exact .keep none
  | remove key removed =>
    cases removed with
    | none =>
      refine ⟨.idle .absent, rfl, .read, trivial, ?_, .inl hbacks.symm, hmutex,
        .quiet rfl rfl htaken.symm rfl (.inl hown),
      .returns _ rfl⟩
      rw [hown]
      exact .keep none
    | some x =>
      refine ⟨.idle .removed, rfl, .read, trivial, ?_, .inl hbacks.symm, hmutex,
        .removed key x rfl rfl htaken rfl hown, .returns _ rfl⟩
      rw [hown]
      exact .keep none

section

omit [DecidableEq Thread]

theorem linked_next (hm : Mem s) {x y : ℕ} (hx : s.Linked (some x))
    (hy : s.map.orderNext x = some y) : s.Linked (some y) := fun z hz => by
  cases hz
  obtain ⟨hmem, hreach⟩ := hx x rfl
  refine ⟨((hm.order.next x hmem).below y hy).1, hreach.trans ?_⟩
  rw [hy]
  exact .here y

theorem linked_splice (hm : Mem s) {prev : Option ℕ} {x y : ℕ} (hprev : s.Linked prev)
    (hx : s.Linked (some x)) (hy : s.map.orderNext x = some y)
    (happ : s'.appended = s.appended)
    (hmap : s'.map = (s.map.storeOrderLink prev (some y)).modify x
      fun n => { n with orderSwept := true }) : s'.Linked prev ∧ s'.Linked (some y) := by
  have hmem := ((hm.order.next x (hx x rfl).1).below y hy).1
  have hnext : s'.map.orderNext = (s.map.storeOrderLink prev (some y)).orderNext := by
    rw [hmap]
    exact Map.orderNext_modify fun n => rfl
  cases prev with
  | none =>
    refine ⟨fun a ha => absurd ha nofun, fun z hz => ?_⟩
    cases hz
    refine ⟨happ ▸ hmem, ?_⟩
    rw [hmap]
    exact .here y
  | some a =>
    obtain ⟨ha, hreach⟩ := hprev a rfl
    have hstore : (s.map.storeOrderLink (some a) (some y)).orderNext =
        Function.update s.map.orderNext a (some y) :=
      Map.orderNext_store (hm.node a (hm.appended a ha))
    have hhead : s'.map.orderHead = s.map.orderHead := by
      rw [hmap]
      rfl
    have hself : Reach s'.map.orderNext s'.map.orderHead a := by
      rw [hnext, hstore, hhead]
      exact hreach.update_self
    refine ⟨fun z hz => ?_, fun z hz => ?_⟩
    · cases hz
      exact ⟨happ ▸ ha, hself⟩
    · cases hz
      refine ⟨happ ▸ hmem, hself.trans ?_⟩
      rw [hnext, hstore, Function.update_self]
      exact .here y

end

theorem moves_sweepExchange (hm : Mem s) {i x : ℕ} {prev : Link} {next : Option ℕ}
    (hok : s.PcOk (.gc caller (.sweepExchange i prev x next)))
    (h : accessGc s t caller (.sweepExchange i prev x next) = some s') :
    ∃ pc', Moves s s' t (.gc caller (.sweepExchange i prev x next)) pc' := by
  obtain ⟨hcaller, hprev, hx, hnext, hmark⟩ := hok
  rw [accessGc] at h
  split at h
  · cases h
    have hs : Spliceable s.map s.published prev x next := ⟨hmark, ‹_›, hprev, hnext⟩
    have heffect : Effect s (.gc caller (.sweepExchange i prev x next))
        ((s.map.storeLink prev next).modify x fun n => { n with bucketSwept := true })
        s.published s.appended := .sweep caller i prev x next rfl hx hs
    have hsound : Sound s { s.goto t (.gc caller (sweepVisit i prev next)) with
        map := (s.map.storeLink prev next).modify x fun n => { n with bucketSwept := true } }
        (.gc caller (.sweepExchange i prev x next)) := Effect.sound hm heffect
    refine ⟨_, moves_of_holds rfl heffect ⟨hsound.frame.callerOk hcaller,
      sweepVisit_ok hprev fun y hy => ?_⟩ (sweepVisit_holds _ _ _ _) rfl rfl rfl (.keep rfl rfl)⟩
    obtain ⟨n, hn⟩ := hm.node x hx
    exact ((hnext _ ⟨hx, n, hn, rfl⟩).below y hy).1.1
  · cases h
    exact ⟨_, moves_gc hcaller trivial rfl rfl⟩

theorem moves_orderDeleted (hm : Mem s) {prev next : Option ℕ} {x : ℕ}
    (hok : s.PcOk (.gc caller (.orderDeleted prev x next)))
    (h : accessGc s t caller (.orderDeleted prev x next) = some s') :
    ∃ pc', Moves s s' t (.gc caller (.orderDeleted prev x next)) pc' := by
  obtain ⟨hcaller, hprev, hx, hnext⟩ := hok
  have hvisit : s.GcOk (orderVisit (some x) next) := by
    cases next with
    | none => trivial
    | some y => exact orderVisit_ok hx (linked_next hm hx (hnext y rfl))
  cases hmark : s.map.marked x with
  | false =>
    simp only [accessGc, hmark] at h
    cases h
    exact ⟨_, moves_gc hcaller hvisit rfl (by cases next <;> rfl)⟩
  | true =>
    cases next with
    | none =>
      simp only [accessGc, hmark] at h
      cases h
      exact ⟨_, moves_gc hcaller hvisit rfl rfl⟩
    | some y =>
      simp only [accessGc, hmark] at h
      cases h
      exact ⟨_, moves_gc hcaller ⟨hprev, hx, hnext y rfl, Map.marked_eq_true.mp hmark⟩ rfl rfl⟩

theorem moves_orderExchange (hm : Mem s) {prev : Option ℕ} {x next : ℕ}
    (hok : s.PcOk (.gc caller (.orderExchange prev x next)))
    (h : accessGc s t caller (.orderExchange prev x next) = some s') :
    ∃ pc', Moves s s' t (.gc caller (.orderExchange prev x next)) pc' := by
  obtain ⟨hcaller, hprev, hx, hnext, hmark⟩ := hok
  rw [accessGc] at h
  split at h
  · cases h
    have heffect : Effect s (.gc caller (.orderExchange prev x next))
        ((s.map.storeOrderLink prev (some next)).modify x fun n => { n with orderSwept := true })
        s.published s.appended := .orderSplice caller prev x next rfl hprev hx hmark ‹_› hnext
    have hsound : Sound s { s.goto t (.gc caller (orderVisit prev (some next))) with
        map := (s.map.storeOrderLink prev (some next)).modify x
          fun n => { n with orderSwept := true } }
        (.gc caller (.orderExchange prev x next)) := Effect.sound hm heffect
    refine ⟨_, moves_of_holds rfl heffect ⟨hsound.frame.callerOk hcaller, orderVisit_ok ?_ ?_⟩
      (orderVisit_holds _ _ _) rfl rfl rfl (.keep rfl rfl)⟩
    · exact And.left (linked_splice hm hprev hx hnext rfl rfl)
    · exact And.right (linked_splice hm hprev hx hnext rfl rfl)
  · cases h
    exact ⟨_, moves_gc hcaller hprev rfl rfl⟩

theorem moves_accessGc (hm : Mem s) (hok : s.PcOk (.gc caller pc))
    (h : accessGc s t caller pc = some s') : ∃ pc', Moves s s' t (.gc caller pc) pc' := by
  have hcaller : s.CallerOk caller := hok.1
  cases pc with
  | lock =>
    rw [accessGc] at h
    split at h
    · rename_i hfree
      cases h
      refine ⟨_, rfl, .read, ⟨hcaller, trivial⟩, .keep none, .inl rfl, ?_,
        .quiet rfl rfl rfl rfl (.inl rfl), .keep rfl rfl⟩
      rw [hfree]
      exact .lock
    · cases h
  | drain =>
    cases h
    refine ⟨_, moves_of_holds rfl (.lists [] (s.map.allNodes ++ s.map.staging)
      (fun x hx => absurd hx List.not_mem_nil) fun x hx => ?_) ⟨hcaller, trivial⟩ rfl rfl rfl rfl (.keep rfl rfl)⟩
    exact (List.mem_append.mp hx).elim (hm.allNodes x) (hm.staging x)
  | sweepHead i =>
    rw [accessGc] at h
    split at h
    · cases h
      refine ⟨_, moves_gc hcaller (sweepVisit_ok (fun y hy => absurd hy nofun) fun y hy => ?_) rfl
        (by cases s.map.buckets i <;> rfl)⟩
      exact (bucket_in hm hy).1
    · cases h
      exact ⟨_, moves_gc hcaller trivial rfl rfl⟩
  | sweepNext i prev x =>
    obtain ⟨-, hprev, hx⟩ := hok
    cases h
    exact ⟨_, moves_gc hcaller ⟨hprev, hx, fun b hb => hm.buckets.next b x hb⟩ rfl rfl⟩
  | sweepDeleted i prev x next =>
    obtain ⟨-, hprev, hx, hnext⟩ := hok
    rw [accessGc] at h
    split at h
    · cases h
      exact ⟨_, moves_gc hcaller ⟨hprev, hx, hnext, Map.marked_eq_true.mp ‹_›⟩ rfl rfl⟩
    · cases h
      refine ⟨_, moves_gc hcaller (sweepVisit_ok (fun y hy => ?_) fun y hy => ?_) rfl
        (by cases next <;> rfl)⟩
      · cases hy
        exact hx
      · obtain ⟨n, hn⟩ := hm.node x hx
        exact ((hnext _ ⟨hx, n, hn, rfl⟩).below y hy).1.1
  | sweepExchange i prev x next => exact moves_sweepExchange hm hok h
  | orderHead =>
    cases h
    refine ⟨_, moves_gc hcaller (orderVisit_ok (fun y hy => absurd hy nofun) fun y hy => ?_) rfl
      (by cases s.map.orderHead <;> rfl)⟩
    refine ⟨(hm.order.head.below y hy).1, ?_⟩
    rw [hy]
    exact .here y
  | orderNext prev x =>
    obtain ⟨-, hprev, hx⟩ := hok
    cases h
    exact ⟨_, moves_gc hcaller ⟨hprev, hx, fun y hy => hy⟩ rfl rfl⟩
  | orderDeleted prev x next => exact moves_orderDeleted hm hok h
  | orderExchange prev x next => exact moves_orderExchange hm hok h
  | orderReload prev =>
    have hprev : s.Linked prev := hok.2
    cases h
    refine ⟨_, moves_gc hcaller (orderVisit_ok hprev fun y hy => ?_) rfl
      (by cases s.map.orderLink prev <;> rfl)⟩
    cases prev with
    | none =>
      have hhead : s.map.orderHead = some y := hy
      refine ⟨(hm.order.head.below y hhead).1, ?_⟩
      rw [hhead]
      exact .here y
    | some a => exact linked_next hm hprev hy y rfl
  | loadEpoch =>
    cases h
    exact ⟨_, moves_gc hcaller hm.allNodes rfl rfl⟩
  | stamp epoch rest =>
    obtain ⟨-, hrest⟩ := hok
    cases rest with
    | nil =>
      cases h
      exact ⟨_, moves_gc hcaller trivial rfl rfl⟩
    | cons x rest =>
      cases h
      have heffect : ∀ pc : Pc Key Value, Effect s pc _ s.published s.appended := fun pc =>
        .stamp x epoch (hrest x (by simp))
      have hsound : Sound s { s.goto t (.gc caller (.stamp epoch rest)) with
          map := s.map.modify x fun n =>
            if n.bucketSwept ∧ n.orderSwept ∧ n.retiredEpoch < 0 then
              { n with retiredEpoch := epoch }
            else n } (.idle .done) := Effect.sound hm (heffect _)
      exact ⟨_, moves_of_holds rfl (heffect _) ⟨hsound.frame.callerOk hcaller,
        fun y hy => hrest y (by simp [hy])⟩ rfl rfl rfl rfl (.keep rfl rfl)⟩
  | loadSafe =>
    cases h
    exact ⟨_, moves_gc hcaller ⟨hm.allNodes, fun x hx => absurd hx List.not_mem_nil⟩ rfl rfl⟩
  | free safe rest kept =>
    obtain ⟨-, hrest, hkept⟩ := hok
    cases rest with
    | nil =>
      cases h
      have hsound : Sound s { s.goto t (.gc caller .unlock) with
          map := { s.map with allNodes := kept } } (.idle .done) :=
        .of_memory (sound_lists hm hm.staging hkept)
      exact ⟨_, moves_of_holds rfl (.lists s.map.staging kept hm.staging hkept)
        ⟨hsound.frame.callerOk hcaller, trivial⟩ rfl rfl rfl rfl (.keep rfl rfl)⟩
    | cons x rest =>
      have hx := hrest x (by simp)
      have hrest' : ∀ y ∈ rest, y ∈ s.published := fun y hy => hrest y (by simp [hy])
      rw [accessGc] at h
      split at h
      · rename_i hretired
        cases h
        have hsound : Sound s { s.goto t (.gc caller (.free safe rest kept)) with
            map := s.map.deleteNode x } (.idle .done) :=
          Effect.sound hm (.free x safe hx hretired)
        exact ⟨_, moves_of_holds rfl (.free x safe hx hretired)
          ⟨hsound.frame.callerOk hcaller, hrest', hkept⟩ rfl rfl rfl rfl (.keep rfl rfl)⟩
      · cases h
        refine ⟨_, moves_gc hcaller ⟨hrest', fun y hy => ?_⟩ rfl rfl⟩
        rcases List.mem_append.mp hy with hy | hy
        · exact hkept y hy
        · rw [List.mem_singleton.mp hy]
          exact hx
  | unlock =>
    cases h
    exact moves_finish hcaller ⟨rfl, rfl, rfl⟩ (.unlock _)

end Equilibrium.LockFreeOrderedHashMap
