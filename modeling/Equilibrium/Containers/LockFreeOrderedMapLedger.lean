import Equilibrium.Containers.LockFreeOrderedMapInvariant

/-! The insertions and removals that returned `true`, against the nodes. An insertion that
backs off must find its own node unmarked, or a removal has been counted that took
nothing away. -/

namespace Equilibrium.LockFreeOrderedHashMap

open Library.Interleaving Library.LinkedChain List

variable {Thread Key Value : Type}

namespace State

variable (s : State Thread Key Value)

def Lasting (x : ℕ) : Prop :=
  x ∈ s.appended ∨ ∃ t, (s.thread t).own = some x ∧ (s.thread t).backsOff = false

/-- A removal of the node has returned or will return `true`. -/
def Removing (x : ℕ) : Prop :=
  x ∈ s.removed.map Prod.snd ∨ ∃ t p, (s.thread t).taken = some p ∧ p.2 = x

end State

/-- The insertions that returned `true` are those of the nodes in the order list. -/
structure InsertLedger (s : State Thread Key Value) : Prop where
  nodup : (s.inserted.map Prod.snd).Nodup
  counted : ∀ p ∈ s.inserted, p.2 ∈ s.appended ∧ s.map.Keyed p.1 p.2 ∧
    ∀ t, (s.thread t).own ≠ some p.2
  appended : ∀ x ∈ s.appended, x ∈ s.inserted.map Prod.snd ∨ ∃ t, (s.thread t).own = some x

/-- The removals that returned `true` are those of the marked nodes in the order list. -/
structure RemoveLedger (s : State Thread Key Value) : Prop where
  nodup : (s.removed.map Prod.snd).Nodup
  dropped : ∀ p ∈ s.removed, s.Dropped p.1 p.2 ∧ s.Lasting p.2
  taken : ∀ t p, (s.thread t).taken = some p → p.2 ∉ s.removed.map Prod.snd ∧ s.Lasting p.2
  taker : ∀ t u p q, (s.thread t).taken = some p → (s.thread u).taken = some q → p.2 = q.2 → t = u
  marked : ∀ x, s.map.Marked x → s.Removing x ∨
    x ∉ s.appended ∧ ∀ t, (s.thread t).own = some x → (s.thread t).backsOff = true

variable [Hashable Key]

section Places

variable {s : State Thread Key Value} {pc : Pc Key Value}

theorem taken_dropped (hok : s.PcOk pc) {p : Key × ℕ} (hp : pc.taken = some p) :
    s.Dropped p.1 p.2 := by
  have hresume : ∀ {after : Resume Key Value}, s.ResumeOk after → after.taken = some p →
      s.Dropped p.1 p.2 := by
    intro after h hp
    cases after with
    | retry key draft => cases hp
    | backOff key new => cases hp
    | removed key x =>
      cases hp
      exact h
  have hcaller : ∀ {caller : Caller Key}, s.CallerOk caller → caller.taken = some p →
      s.Dropped p.1 p.2 := by
    intro caller h hp
    cases caller with
    | collect => cases hp
    | remove key removed =>
      obtain ⟨x, hx, rfl⟩ := Option.map_eq_some_iff.mp hp
      exact h x hx
  cases pc with
  | unlinkHead after node => exact hresume hok.1 hp
  | unlinkStep after node y => exact hresume hok.1 hp
  | unlinkNext after node prev => exact hresume hok.1 hp
  | unlinkExchange after node prev next => exact hresume hok.1 hp
  | postMutate key removed =>
    have hok' : s.CallerOk (.remove key removed) := hok
    exact hcaller hok' hp
  | gc caller pc => exact hcaller hok.1 hp
  | _ => cases hp

variable {x : ℕ}

theorem backsOff_marked (hok : s.PcOk pc) (hb : pc.backsOff = true) (hx : pc.own = some x) :
    s.map.Marked x := by
  have hresume : ∀ {after : Resume Key Value}, s.ResumeOk after → after.backsOff = true →
      after.own = some x → s.map.Marked x := by
    intro after h hb hx
    cases after with
    | retry key draft => cases hb
    | backOff key new =>
      cases hx
      exact h.1.2.2
    | removed key y => cases hb
  cases pc with
  | unlinkHead after node => exact hresume hok.1 hb hx
  | unlinkStep after node y => exact hresume hok.1 hb hx
  | unlinkNext after node prev => exact hresume hok.1 hb hx
  | unlinkExchange after node prev next => exact hresume hok.1 hb hx
  | loadStaging key new live =>
    cases live with
    | true => cases hb
    | false =>
      cases hx
      exact hok.1.2.2
  | exchangeStaging key new live head =>
    cases live with
    | true => cases hb
    | false =>
      cases hx
      exact hok.1.2.2
  | _ => cases hb

theorem Effect.marks {m : Map Key Value} {published appended : List ℕ}
    (h : Effect s pc m published appended) (hx : m.Marked x) :
    s.map.Marked x ∨ (∃ key, pc = .giveUp key x ∧ x ∉ appended) ∨ ∃ key, pc = .mark key x := by
  have hmodify : ∀ {m : Map Key Value} {y : ℕ} {f : Node Key Value → Node Key Value},
      (m.modify y f).Marked x → (∀ n, (f n).isDeleted = n.isDeleted) → m.Marked x := by
    rintro m y f ⟨n', hn', hdeleted⟩ hf
    rw [Map.nodes_modify] at hn'
    obtain ⟨n, hn, rfl⟩ := Option.map_eq_some_iff.mp hn'
    refine ⟨n, hn, ?_⟩
    split at hdeleted
    · rwa [hf] at hdeleted
    · exact hdeleted
  have hstored : ∀ {m : Map Key Value} {y : ℕ} {f : Node Key Value → Node Key Value},
      x ≠ y → (m.modify y f).Marked x → m.Marked x := by
    rintro m y f hxy ⟨n', hn', hdeleted⟩
    rw [Map.nodes_modify] at hn'
    obtain ⟨n, hn, rfl⟩ := Option.map_eq_some_iff.mp hn'
    rw [if_neg hxy] at hdeleted
    exact ⟨n, hn, hdeleted⟩
  cases h with
  | construct key value =>
    obtain ⟨n, hn, hdeleted⟩ := hx
    by_cases hxa : x = s.map.allocated
    · subst hxa
      rw [Map.newNode_nodes, Function.update_self] at hn
      cases hn
      cases hdeleted
    · rw [Map.newNode_nodes, Function.update_of_ne hxa] at hn
      exact .inl ⟨n, hn, hdeleted⟩
  | discard key y hown hy => exact .inl (hmodify hx fun n => rfl)
  | storeNext key y p hown hy => exact .inl (hmodify hx fun n => rfl)
  | giveUp key y hpc hy =>
    by_cases hxy : x = y
    · subst hxy
      exact .inr (.inl ⟨key, hpc, hy.2.1⟩)
    · exact .inl (hstored hxy hx)
  | mark key y hpc hy hkey hlive =>
    by_cases hxy : x = y
    · subst hxy
      exact .inr (.inr ⟨key, hpc⟩)
    · exact .inl (hstored hxy hx)
  | splice after prev y q hpc hy hs =>
    cases prev with
    | bucket i => exact .inl hx
    | node z => exact .inl (hmodify hx fun n => rfl)
  | sweep caller i prev y q hpc hy hs =>
    have hx' := hmodify hx fun n => rfl
    cases prev with
    | bucket i => exact .inl hx'
    | node z => exact .inl (hmodify hx' fun n => rfl)
  | reset key y hown hy => exact .inl (hmodify hx fun n => rfl)
  | append key y tail hpc hy hno htail hnext => exact .inl (hmodify hx fun n => rfl)
  | orderSplice caller prev y z hpc hprev hy hmark hlink hnext =>
    have hx' := hmodify hx fun n => rfl
    cases prev with
    | none => exact .inl hx'
    | some a => exact .inl (hmodify hx' fun n => rfl)
  | stamp y epoch hy =>
    refine .inl (hmodify hx fun n => ?_)
    split <;> rfl
  | free y safe hy hretired => exact .inl (hmodify hx fun n => rfl)
  | _ => exact .inl hx

end Places

section Steps

variable [DecidableEq Thread] {s s' : State Thread Key Value} {t : Thread} {pc' : Pc Key Value}

theorem own_cases (hi : Inv s) (h : Moves s s' t (s.thread t) pc') {u : Thread}
    (hx : (s'.thread u).own = some x) : (s.thread u).own = some x ∨ s.map.nodes x = none := by
  by_cases hut : u = t
  · subst hut
    refine (Inv.own_self h hx).imp_right ?_
    rintro ⟨-, rfl⟩
    cases hn : s.map.nodes s.map.allocated with
    | none => rfl
    | some n => exact absurd (hi.bounded _ n hn) (Nat.lt_irrefl _)
  · rw [Inv.thread_other h hut] at hx
    exact .inl hx

theorem inserted_cases (h : Moves s s' t (s.thread t) pc') :
    (s'.inserted = s.inserted ∧ ∀ x, (s.thread t).own = some x →
      (s'.thread t).own = some x ∨ x ∉ s'.appended) ∨
    ∃ key x, (s.thread t).own = some x ∧ (s'.thread t).own = none ∧ x ∈ s.appended ∧
      s.map.Keyed key x ∧ s'.inserted = s.inserted ++ [(key, x)] := by
  have hself := Inv.thread_self h
  cases h.report with
  | quiet hi hr ht hpc' hown =>
    refine .inl ⟨hi, fun x hx => ?_⟩
    rcases hown with hown | hleft
    · exact .inl (by rw [hself, ← hown, hx])
    · obtain ⟨hno, hgone⟩ := hleft x hx
      refine .inr fun happ => ?_
      rcases h.effect.appended with heq | ⟨key, y, heq, hy, hbacks, howned, -⟩
      · exact hno (heq ▸ happ)
      · rw [heq, mem_append, mem_singleton] at happ
        rcases happ with happ | rfl
        · exact hno happ
        · rcases hgone with hgone | hgone
          · exact hgone howned.1
          · cases hbacks.symm.trans hgone
  | took key x hpc hi =>
    refine .inl ⟨hi, fun x hx => ?_⟩
    rw [hpc] at hx
    cases hx
  | inserted key x hown hpc' hx hkey hi =>
    refine .inr ⟨key, x, hown, ?_, hx, hkey, hi⟩
    rw [hself, hpc']
    rfl
  | removed key x hi hr ht hpc' hown =>
    exact .inl ⟨hi, fun x hx => absurd (hown.symm.trans hx) nofun⟩

theorem InsertLedger.moves (hi : Inv s) (hl : InsertLedger s)
    (h : Moves s s' t (s.thread t) pc') : InsertLedger s' := by
  have hf := (hi.sound h).frame
  have hcounted : ∀ p ∈ s.inserted, p.2 ∈ s'.appended ∧ s'.map.Keyed p.1 p.2 ∧
      ∀ u, (s'.thread u).own ≠ some p.2 := by
    intro p hp
    obtain ⟨happ, hkey, hno⟩ := hl.counted p hp
    refine ⟨hf.memAppended happ, hf.keyed hkey, fun u hu => ?_⟩
    rcases own_cases hi h hu with hu | hnone
    · exact hno u hu
    · obtain ⟨n, hn⟩ := hi.node p.2 (hi.appended p.2 happ)
      cases hnone.symm.trans hn
  have hothers : ∀ x ∈ s'.appended, x ∈ s.inserted.map Prod.snd ∨
      ∃ u, (s.thread u).own = some x := by
    intro x hx
    rcases h.effect.appended with heq | ⟨key, y, heq, hy, -⟩
    · exact hl.appended x (heq ▸ hx)
    · rw [heq, mem_append, mem_singleton] at hx
      rcases hx with hx | rfl
      · exact hl.appended x hx
      · exact .inr ⟨t, hy⟩
  rcases inserted_cases h with ⟨heq, hkeep⟩ | ⟨key, x, hown, hown', hx, hkey, heq⟩
  · refine ⟨heq ▸ hl.nodup, fun p hp => hcounted p (heq ▸ hp), fun y hy => ?_⟩
    rw [heq]
    refine (hothers y hy).imp_right ?_
    rintro ⟨u, hu⟩
    by_cases hut : u = t
    · subst hut
      rcases hkeep y hu with hu' | hno
      · exact ⟨u, hu'⟩
      · exact absurd hy hno
    · exact ⟨u, by rw [Inv.thread_other h hut]; exact hu⟩
  · refine ⟨?_, fun p hp => ?_, fun y hy => ?_⟩
    · rw [heq, map_append, nodup_append]
      refine ⟨hl.nodup, nodup_singleton x, fun a ha b hb hab => ?_⟩
      obtain ⟨p, hp, rfl⟩ := mem_map.mp ha
      obtain rfl := mem_singleton.mp hb
      exact (hl.counted p hp).2.2 t (hab ▸ hown)
    · rw [heq, mem_append, mem_singleton] at hp
      rcases hp with hp | rfl
      · exact hcounted p hp
      · refine ⟨hf.memAppended hx, hf.keyed hkey, fun u hu => ?_⟩
        rcases own_cases hi h hu with hu' | hnone
        · rw [hi.owner u t x hu' hown, hown'] at hu
          cases hu
        · obtain ⟨n, hn⟩ := hi.node x (hi.appended x hx)
          cases hnone.symm.trans hn
    · rw [heq, map_append]
      rcases hothers y hy with hold | ⟨u, hu⟩
      · exact .inl (mem_append_left _ hold)
      · by_cases hut : u = t
        · subst hut
          rw [hown] at hu
          cases hu
          exact .inl mem_concat_self
        · exact .inr ⟨u, by rw [Inv.thread_other h hut]; exact hu⟩

theorem removed_cases (h : Moves s s' t (s.thread t) pc') :
    (s'.removed = s.removed ∧ ((s'.thread t).taken = none ∨
      (s'.thread t).taken = (s.thread t).taken)) ∨
    (∃ key x, s.thread t = .mark key x ∧ s'.removed = s.removed ∧
      (s'.thread t).taken = some (key, x) ∧ ¬ s.map.Marked x) ∨
    ∃ key x, (s.thread t).taken = some (key, x) ∧ (s'.thread t).taken = none ∧
      s'.removed = s.removed ++ [(key, x)] := by
  have hself := Inv.thread_self h
  cases h.report with
  | quiet hi hr ht => exact .inl ⟨hr, .inr (by rw [hself, ht])⟩
  | took key x hpc hi hr ht hlive => exact .inr (.inl ⟨key, x, hpc, hr, by rw [hself, ht], hlive⟩)
  | inserted key x hown hpc' hx hkey hi hr ht =>
    refine .inl ⟨hr, .inl ?_⟩
    rw [hself, hpc']
    rfl
  | removed key x hi hr ht hpc' hown =>
    refine .inr (.inr ⟨key, x, ht, ?_, hr⟩)
    rw [hself, hpc']
    rfl

theorem lasting_moves (hi : Inv s) (h : Moves s s' t (s.thread t) pc')
    (hguard : ∀ key x, s.thread t = .giveUp key x → ¬ s.map.Marked x) {key : Key}
    (hx : s.Dropped key x) (hl : s.Lasting x) : s'.Lasting x := by
  have hf := (hi.sound h).frame
  rcases hl with happ | ⟨u, hu, hbacks⟩
  · exact .inl (hf.memAppended happ)
  · by_cases hut : u = t
    · subst hut
      have hself := Inv.thread_self h
      have hkept : pc'.own = (s.thread u).own → s'.Lasting x := by
        intro hown
        refine .inr ⟨u, by rw [hself, hown, hu], ?_⟩
        rw [hself]
        rcases h.backsOff with heq | hnone | ⟨key', y, hpc, -⟩
        · rw [heq, hbacks]
        · rw [hnone, hu] at hown
          cases hown
        · rw [hpc] at hu
          cases hu
          exact absurd hx.2.2 (hguard key' x hpc)
      cases h.report with
      | quiet hi' hr ht hpc' hown =>
        rcases hown with hown | hleft
        · exact hkept hown.symm
        · rcases (hleft x hu).2 with hno | hb
          · exact absurd hx.1 hno
          · cases hbacks.symm.trans hb
      | took key' y hpc =>
        rw [hpc] at hu
        cases hu
      | inserted key' y hown hpc' hy =>
        rw [hu] at hown
        cases hown
        exact .inl (hf.memAppended hy)
      | removed key' y hi' hr ht hpc' hown => cases hown.symm.trans hu
    · refine .inr ⟨u, ?_⟩
      rw [Inv.thread_other h hut]
      exact ⟨hu, hbacks⟩

theorem taken_cases (h : Moves s s' t (s.thread t) pc') {u : Thread} {p : Key × ℕ}
    (hp : (s'.thread u).taken = some p) : (s.thread u).taken = some p ∨
      u = t ∧ s.thread t = .mark p.1 p.2 ∧ ¬ s.map.Marked p.2 := by
  by_cases hut : u = t
  · subst hut
    rcases removed_cases h with ⟨-, hnone | heq⟩ | ⟨key, x, hpc, -, htaken, hlive⟩ |
        ⟨key, x, -, hnone, -⟩
    · cases hnone.symm.trans hp
    · exact .inl (heq ▸ hp)
    · rw [htaken] at hp
      cases hp
      exact .inr ⟨rfl, hpc, hlive⟩
    · cases hnone.symm.trans hp
  · rw [Inv.thread_other h hut] at hp
    exact .inl hp

section Access

variable [DecidableEq Key] {a : Act Thread Key Value}

theorem access_of_step (ha : a.thread = some t) (hbusy : ∀ r, s.thread t ≠ .idle r)
    (h : step s a = some s') : ∃ choice, access s t choice = some s' := by
  cases a with
  | access u choice =>
    cases ha
    exact ⟨choice, h⟩
  | tryAdvance => cases ha
  | _ =>
    cases ha
    rw [step] at h
    split at h
    · exact absurd ‹_› (hbusy _)
    · cases h

theorem mark_takes {key : Key} (ha : a.thread = some t) (hpc : s.thread t = .mark key x)
    (h : step s a = some s') : s'.map = s.map ∨ (s'.thread t).taken = some (key, x) := by
  obtain ⟨choice, hs⟩ := access_of_step ha (fun r hr => absurd (hpc.symm.trans hr) nofun) h
  simp only [access, hpc] at hs
  split at hs
  · cases hs
    exact .inl rfl
  · split at hs
    · cases hs
      exact .inl rfl
    · cases hs
      refine .inr ?_
      simp [Pc.taken, Resume.taken]

theorem giveUp_backsOff {key : Key} (ha : a.thread = some t) (hpc : s.thread t = .giveUp key x)
    (h : step s a = some s') : (s'.thread t).backsOff = true := by
  obtain ⟨choice, hs⟩ := access_of_step ha (fun r hr => absurd (hpc.symm.trans hr) nofun) h
  simp only [access, hpc] at hs
  cases hs
  simp [Pc.backsOff, Resume.backsOff]

omit [DecidableEq Key] in
/-- What was being removed still is, or has been. -/
theorem removing_moves (h : Moves s s' t (s.thread t) pc') (hx : s.Removing x) : s'.Removing x := by
  have hremoved : ∀ y ∈ s.removed.map Prod.snd, y ∈ s'.removed.map Prod.snd := by
    intro y hy
    rcases removed_cases h with ⟨heq, -⟩ | ⟨_, _, -, heq, -⟩ | ⟨_, _, -, -, heq⟩
    · exact heq ▸ hy
    · exact heq ▸ hy
    · rw [heq, map_append]
      exact mem_append_left _ hy
  rcases hx with hx | ⟨u, p, hp, rfl⟩
  · exact .inl (hremoved x hx)
  · by_cases hut : u = t
    · subst hut
      rcases removed_cases h with ⟨-, hnone | heq⟩ | ⟨key, x, hpc, -⟩ | ⟨key, x, htaken, -, heq⟩
      · cases h.report with
        | quiet _ _ ht =>
          rw [Inv.thread_self h, ht, hp] at hnone
          cases hnone
        | took key x hpc =>
          rw [hpc] at hp
          cases hp
        | inserted _ _ _ _ _ _ _ _ ht => cases ht.symm.trans hp
        | removed key x hi hr ht =>
          rw [hp] at ht
          cases ht
          refine .inl ?_
          rw [hr, map_append]
          exact mem_concat_self
      · exact .inr ⟨u, p, heq ▸ hp, rfl⟩
      · rw [hpc] at hp
        cases hp
      · rw [hp] at htaken
        cases htaken
        refine .inl ?_
        rw [heq, map_append]
        exact mem_concat_self
    · exact .inr ⟨u, p, by rw [Inv.thread_other h hut]; exact hp, rfl⟩

theorem RemoveLedger.moves (hi : Inv s) (hl : RemoveLedger s) (ha : a.thread = some t)
    (hstep : step s a = some s') (h : Moves s s' t (s.thread t) pc')
    (hguard : ∀ key x, s.thread t = .giveUp key x → ¬ s.map.Marked x) : RemoveLedger s' := by
  have hf := (hi.sound h).frame
  have htaken : ∀ u p, (s.thread u).taken = some p → s.Dropped p.1 p.2 := fun u p hp =>
    taken_dropped (hi.places u) hp
  have hold : ∀ p ∈ s.removed, s'.Dropped p.1 p.2 ∧ s'.Lasting p.2 := fun p hp =>
    ⟨hf.dropped (hl.dropped p hp).1, lasting_moves hi h hguard (hl.dropped p hp).1 (hl.dropped p hp).2⟩
  have hmember : ∀ x, x ∈ s'.removed.map Prod.snd → x ∈ s.removed.map Prod.snd ∨
      ∃ key, (s.thread t).taken = some (key, x) ∧ (s'.thread t).taken = none := by
    intro x hx
    rcases removed_cases h with ⟨heq, -⟩ | ⟨_, _, -, heq, -⟩ | ⟨key, y, hy, hnone, heq⟩
    · exact .inl (heq ▸ hx)
    · exact .inl (heq ▸ hx)
    · rw [heq, map_append, mem_append] at hx
      refine hx.imp_right fun hx => ?_
      obtain rfl := mem_singleton.mp hx
      exact ⟨key, hy, hnone⟩
  refine ⟨?_, fun p hp => ?_, fun u p hp => ⟨fun hmem => ?_, ?_⟩, fun u v p q hp hq hpq => ?_,
    fun x hx => ?_⟩
  · rcases removed_cases h with ⟨heq, -⟩ | ⟨_, _, -, heq, -⟩ | ⟨key, x, hx, -, heq⟩
    · exact heq ▸ hl.nodup
    · exact heq ▸ hl.nodup
    · rw [heq, map_append, nodup_append]
      refine ⟨hl.nodup, nodup_singleton x, fun a ha b hb hab => ?_⟩
      obtain rfl := mem_singleton.mp hb
      exact (hl.taken t _ hx).1 (hab ▸ ha)
  · rcases removed_cases h with ⟨heq, -⟩ | ⟨_, _, -, heq, -⟩ | ⟨key, x, hx, -, heq⟩
    · exact hold p (heq ▸ hp)
    · exact hold p (heq ▸ hp)
    · rw [heq, mem_append, mem_singleton] at hp
      rcases hp with hp | rfl
      · exact hold p hp
      · exact ⟨hf.dropped (htaken t _ hx),
          lasting_moves hi h hguard (htaken t _ hx) (hl.taken t _ hx).2⟩
  · rcases taken_cases h hp with hp' | ⟨rfl, hpc, hlive⟩
    · rcases hmember _ hmem with hmem | ⟨key, hkey, hnone⟩
      · exact (hl.taken u p hp').1 hmem
      · rw [hl.taker u t p (key, p.2) hp' hkey rfl, hnone] at hp
        cases hp
    · rcases hmember _ hmem with hmem | ⟨key, hkey, -⟩
      · obtain ⟨q, hq, hqp⟩ := mem_map.mp hmem
        exact hlive (hqp ▸ (hl.dropped q hq).1.2.2)
      · rw [hpc] at hkey
        cases hkey
  · rcases taken_cases h hp with hp' | ⟨rfl, hpc, hlive⟩
    · exact lasting_moves hi h hguard (htaken u p hp') (hl.taken u p hp').2
    · have hok := hi.places u
      rw [hpc] at hok
      obtain ⟨hpub, n, hn, hkey⟩ := hok
      have hundeleted := (Map.marked_or_undeleted hn).resolve_left hlive
      rcases hi.live p.2 hpub hundeleted with happ | ⟨v, hv⟩
      · exact .inl (hf.memAppended happ)
      · have hvu : v ≠ u := by
          rintro rfl
          rw [hpc] at hv
          cases hv
        refine .inr ⟨v, ?_⟩
        rw [Inv.thread_other h hvu]
        refine ⟨hv, ?_⟩
        cases hb : (s.thread v).backsOff with
        | false => rfl
        | true => exact absurd (backsOff_marked (hi.places v) hb hv) hlive
  · rcases taken_cases h hp with hp' | ⟨rfl, -, hlive⟩ <;>
      rcases taken_cases h hq with hq' | ⟨rfl, -, hlive'⟩
    · exact hl.taker u v p q hp' hq' hpq
    · exact absurd (hpq ▸ (htaken u p hp').2.2) hlive'
    · exact absurd (hpq.symm ▸ (htaken v q hq').2.2) hlive
    · rfl
  · have hkept : s.map.Marked x → s'.Removing x ∨
        x ∉ s'.appended ∧ ∀ u, (s'.thread u).own = some x → (s'.thread u).backsOff = true := by
      intro hx'
      rcases hl.marked x hx' with hrem | ⟨hno, hbacks⟩
      · exact .inl (removing_moves h hrem)
      · refine .inr ⟨fun happ => ?_, fun u hu => ?_⟩
        · rcases h.effect.appended with heq | ⟨key, y, heq, hy, hb, -⟩
          · exact hno (heq ▸ happ)
          · rw [heq, mem_append, mem_singleton] at happ
            rcases happ with happ | rfl
            · exact hno happ
            · cases hb.symm.trans (hbacks t hy)
        · rcases own_cases hi h hu with hu' | hnone
          · by_cases hut : u = t
            · subst hut
              rw [Inv.thread_self h] at hu ⊢
              rcases h.backsOff with heq | hnone | ⟨_, _, -, hb⟩
              · rw [heq, hbacks u hu']
              · cases hnone.symm.trans hu
              · exact hb
            · rw [Inv.thread_other h hut]
              exact hbacks u hu'
          · obtain ⟨n, hn, -⟩ := hx'
            cases hnone.symm.trans hn
    rcases h.effect.marks hx with hx' | ⟨key, hpc, hno⟩ | ⟨key, hpc⟩
    · exact hkept hx'
    · have hown : (s.thread t).own = some x := by rw [hpc]; rfl
      refine .inr ⟨hno, fun u hu => ?_⟩
      rcases own_cases hi h hu with hu' | hnone
      · rw [hi.owner u t x hu' hown]
        exact giveUp_backsOff ha hpc hstep
      · obtain ⟨n, hn⟩ := own_node hi.toMem (hi.places t) hown
        cases hnone.symm.trans hn
    · rcases mark_takes ha hpc hstep with heq | htook
      · exact hkept (heq ▸ hx)
      · exact .inl (.inr ⟨t, (key, x), htook, rfl⟩)

end Access

end Steps

end Equilibrium.LockFreeOrderedHashMap
