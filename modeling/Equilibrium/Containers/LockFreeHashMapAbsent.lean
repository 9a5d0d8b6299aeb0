import Equilibrium.Containers.LockFreeHashMapRaces

/-! When `find` and `remove` report a key absent while other threads insert and remove.
A walk passes every node of the key that was in its bucket when it loaded the head;
nodes pushed later are in front of it and are not seen. -/

namespace Equilibrium.LockFreeHashMap

open Library.Interleaving Library.LinkedChain Option
open Function (update update_self update_of_ne)

variable {Thread Key Value : Type} [DecidableEq Thread] [IntegralKey Key] [DecidableEq Key]

/-- Which unmarked nodes of `S` a walk for `key` at `p` has not passed: all of them. -/
def Ahead (m : Map Key Value) (key : Key) (S : ℕ → Prop) : Pc Key Value → Prop
  | .loadDead _ k x =>
    k = key ∧ Published m x ∧ ∀ y, S y → Undeleted m key y → Reach m.next (some x) y
  | .exchangeDead k x =>
    k = key ∧ Published m x ∧ ∀ y, S y → Undeleted m key y → Reach m.next (some x) y
  | .loadNext _ k x =>
    k = key ∧ Published m x ∧ ∀ y, S y → Undeleted m key y → Reach m.next (m.next x) y
  | .idle .absent => ∀ y, S y → ¬ Undeleted m key y
  | .idle _ => True
  | _ => False

section

omit [IntegralKey Key] [DecidableEq Key]

theorem Published.trans {m : Map Key Value} {x y : ℕ} (hx : Published m x)
    (hy : Reach m.next (some x) y) : Published m y := by
  obtain ⟨b, hb⟩ := hx
  rcases reach_some.mp hy with rfl | hy
  · exact ⟨b, hb⟩
  · exact ⟨b, hb.trans hy⟩

theorem Frame.reach_from {m m' : Map Key Value} (h : Frame m m') {x : ℕ} (hx : Published m x)
    {y : ℕ} : Reach m'.next (some x) y ↔ Reach m.next (some x) y :=
  reach_congr fun _ hz => h.next _ (hx.trans hz)

theorem Ahead.frame {m m' : Map Key Value} {key : Key} {S : ℕ → Prop} {p : Pc Key Value}
    (h : Ahead m key S p) (hf : Frame m m') (hS : ∀ y, S y → Published m y) : Ahead m' key S p := by
  have hback : ∀ {y}, S y → Undeleted m' key y → Undeleted m key y := fun hy =>
    hf.undeleted _ key (hS _ hy)
  cases p with
  | idle r =>
    cases r with
    | absent => exact fun y hy hu => h y hy (hback hy hu)
    | done => trivial
    | found v => trivial
    | removed => trivial
  | insertLoad b x => exact h
  | insertStore b x q => exact h
  | insertExchange b x q => exact h
  | loadHead op k => exact h
  | loadDead op k x =>
    obtain ⟨hk, hx, hy⟩ := h
    exact ⟨hk, hf.published hx, fun y hS' hu => (hf.reach_from hx).mpr (hy y hS' (hback hS' hu))⟩
  | exchangeDead k x =>
    obtain ⟨hk, hx, hy⟩ := h
    exact ⟨hk, hf.published hx, fun y hS' hu => (hf.reach_from hx).mpr (hy y hS' (hback hS' hu))⟩
  | loadNext op k x =>
    obtain ⟨hk, hx, hy⟩ := h
    refine ⟨hk, hf.published hx, fun y hS' hu => ?_⟩
    rw [hf.next x hx]
    refine (hy y hS' (hback hS' hu)).congr fun z hz => hf.next z (hx.trans (.there hz))

end

omit [IntegralKey Key] in
/-- A walk that moves to the node of a pointer. -/
theorem ahead_visit {m : Map Key Value} {op : Walk} {key : Key} {S : ℕ → Prop} {p : Option ℕ}
    {q : Pc Key Value} (h : visit m op key p = some q)
    (hp : ∀ x, p = some x → Published m x)
    (hS : ∀ y, S y → Undeleted m key y → Reach m.next p y) : Ahead m key S q := by
  cases p with
  | none =>
    cases h
    exact fun y hy hu => not_reach_none (hS y hy hu)
  | some x =>
    obtain ⟨n, hn, rfl⟩ := map_eq_some_iff.mp h
    split
    case isTrue => exact ⟨rfl, hp x rfl, hS⟩
    case isFalse hkey =>
      refine ⟨rfl, hp x rfl, fun y hy hu => ?_⟩
      rcases reach_some.mp (hS y hy hu) with rfl | hr
      · obtain ⟨n', hn', hkey', -⟩ := hu
        rw [hn] at hn'
        cases hn'
        exact absurd hkey' hkey
      · exact hr

theorem Ahead.access {s s' : State Thread Key Value} {t : Thread} {spurious : Bool} {key : Key}
    {S : ℕ → Prop} (h : Ahead s.map key S (s.thread t)) (hbusy : ∀ r, s.thread t ≠ .idle r)
    (hs : access s t spurious = some s')
    (hlost : ∀ x, s.thread t = .exchangeDead key x → s'.thread t ≠ .idle .absent) :
    Ahead s'.map key S (s'.thread t) := by
  unfold LockFreeHashMap.access at hs
  cases ht : s.thread t with
  | idle r => exact absurd ht (hbusy r)
  | insertLoad b x => exact absurd h (by simp [ht, Ahead])
  | insertStore b x q => exact absurd h (by simp [ht, Ahead])
  | insertExchange b x q => exact absurd h (by simp [ht, Ahead])
  | loadHead op k => exact absurd h (by simp [ht, Ahead])
  | loadDead op k x =>
    rw [ht] at h
    obtain ⟨rfl, hx, hy⟩ := h
    simp only [ht, map_eq_some_iff] at hs
    obtain ⟨n, hn, rfl⟩ := hs
    split
    case isTrue hdead =>
      rw [State.goto_thread, update_self]
      refine ⟨rfl, hx, fun y hSy hu => ?_⟩
      rcases reach_some.mp (hy y hSy hu) with rfl | hr
      · obtain ⟨n', hn', -, hlive⟩ := hu
        rw [State.goto_map, hn] at hn'
        cases hn'
        rw [hdead] at hlive
        cases hlive
      · exact hr
    case isFalse =>
      cases op with
      | find =>
        rw [State.goto_thread, update_self]
        trivial
      | remove =>
        rw [State.goto_thread, update_self]
        exact ⟨rfl, hx, hy⟩
  | exchangeDead k x =>
    rw [ht] at h
    obtain ⟨rfl, -, -⟩ := h
    have hlost := hlost x ht
    simp only [ht, map_eq_some_iff] at hs
    obtain ⟨n, hn, rfl⟩ := hs
    split at hlost
    · exact absurd (update_self _ _ _) hlost
    · rw [if_neg ‹_›]
      rw [State.goto_thread, update_self]
      trivial
  | loadNext op k x =>
    rw [ht] at h
    obtain ⟨rfl, hx, hy⟩ := h
    simp only [ht, bind_eq_some_iff, map_eq_some_iff] at hs
    obtain ⟨n, hn, q, hq, rfl⟩ := hs
    have hnext : s.map.next x = n.next := by rw [Map.next, hn]; rfl
    rw [State.goto_thread, update_self]
    refine ahead_visit hq (fun z hz => hx.trans (.there ?_)) fun y hSy hu => hnext ▸ hy y hSy hu
    rw [hnext, hz]
    exact .here z

omit [DecidableEq Thread] in
/-- The nodes of the key that are in the map when the walk starts are in its bucket. -/
theorem Inv.ahead_head {s : State Thread Key Value} (h : Inv s) {op : Walk} {key : Key}
    {q : Pc Key Value}
    (hq : visit s.map op key (s.map.buckets (s.map.hash key)) = some q) :
    Ahead s.map key (InMap s.map) q := by
  refine ahead_visit hq (fun x hx => ⟨s.map.hash key, ?_⟩) fun y hy hu => ?_
  · rw [hx]
    exact .here x
  obtain ⟨b, -, hb⟩ := hy
  obtain ⟨n, hn, hhash⟩ := h.home b y hb
  obtain ⟨n', hn', rfl, -⟩ := hu
  rw [hn] at hn'
  cases hn'
  rw [hhash]
  exact hb

omit [DecidableEq Key] [IntegralKey Key] in
theorem access_thread [IntegralKey Key] [DecidableEq Key] {s s' : State Thread Key Value}
    {t : Thread} {spurious : Bool} (hs : access s t spurious = some s') :
    ∃ p, s'.thread = update s.thread t p := by
  unfold access at hs
  cases ht : s.thread t with
  | idle r => simp [ht] at hs
  | insertLoad index new =>
    simp only [ht, Option.some.injEq] at hs
    cases hs
    exact ⟨_, rfl⟩
  | insertStore index new oldHead =>
    simp only [ht, map_eq_some_iff] at hs
    obtain ⟨n, -, rfl⟩ := hs
    exact ⟨_, rfl⟩
  | insertExchange index new oldHead =>
    simp only [ht] at hs
    split at hs
    all_goals cases hs; exact ⟨_, rfl⟩
  | loadHead op key =>
    simp only [ht, map_eq_some_iff] at hs
    obtain ⟨q, -, rfl⟩ := hs
    exact ⟨q, rfl⟩
  | loadDead op key x =>
    simp only [ht, map_eq_some_iff] at hs
    obtain ⟨n, -, rfl⟩ := hs
    split
    · exact ⟨_, rfl⟩
    · cases op <;> exact ⟨_, rfl⟩
  | exchangeDead key x =>
    simp only [ht, map_eq_some_iff] at hs
    obtain ⟨n, -, rfl⟩ := hs
    split
    · exact ⟨_, rfl⟩
    · exact ⟨_, rfl⟩
  | loadNext op key x =>
    simp only [ht, bind_eq_some_iff, map_eq_some_iff] at hs
    obtain ⟨n, -, q, -, rfl⟩ := hs
    exact ⟨q, rfl⟩

theorem step_other {s s' : State Thread Key Value} {a : Act Thread Key Value} {t : Thread}
    (hs : step s a = some s') (hbusy : ∀ r, s.thread t ≠ .idle r)
    (ha : ∀ spurious, a ≠ .access t spurious) : s'.thread t = s.thread t := by
  cases a with
  | insert u key value =>
    simp only [step] at hs
    split at hs
    case h_1 r hr =>
      cases hs
      exact update_of_ne (fun htu : t = u => hbusy r (htu ▸ hr)) _ _
    case h_2 => cases hs
  | walk op u key =>
    simp only [step] at hs
    split at hs
    case h_1 r hr =>
      cases hs
      exact update_of_ne (fun htu : t = u => hbusy r (htu ▸ hr)) _ _
    case h_2 => cases hs
  | access u spurious =>
    obtain ⟨p, hp⟩ := access_thread hs
    rw [hp]
    exact update_of_ne (fun htu : t = u => ha spurious (by rw [htu])) _ _

/-! A call, from the instant at which it starts to the one at which it returns. -/

section Call

variable {count : ℕ} (e : Execution (machine Thread Key Value count))

theorem inv_state (i : ℕ) : Inv (e.state i) := by
  induction i with
  | zero => exact e.start ▸ inv_init count
  | succ i ih =>
    rcases e.next_cases i with heq | ⟨a, -, hs⟩
    · exact heq ▸ ih
    · exact (step_sound ih hs).1

theorem frame_next (i : ℕ) : Frame (e.state i).map (e.state (i + 1)).map := by
  rcases e.next_cases i with heq | ⟨a, -, hs⟩
  · rw [heq]
    exact frame_refl _
  · exact (step_sound (inv_state e i) hs).2

theorem frame_le {i j : ℕ} (hij : i ≤ j) : Frame (e.state i).map (e.state j).map := by
  induction j, hij using Nat.le_induction with
  | base => exact frame_refl _
  | succ j _ ih => exact ih.trans (frame_next e j)

/-- Thread `t` calls `find` or `remove` with `key` at instant `i` and is still in the
call at instant `j`. -/
structure WalkCall (t : Thread) (op : Walk) (key : Key) (i j : ℕ) : Prop where
  call : e.act i = some (.walk op t key)
  lt : i < j
  busy : ∀ m, i < m → m ≤ j → ∀ r, (e.state m).thread t ≠ .idle r

/-- It has loaded the head of its bucket before instant `m`. -/
def Walking (t : Thread) (op : Walk) (key : Key) (i m : ℕ) : Prop :=
  ∃ h, i < h ∧ h < m ∧ (e.state h).thread t = .loadHead op key ∧
    (e.state (h + 1)).thread t ≠ .loadHead op key ∧
    Ahead (e.state m).map key (InMap (e.state h).map) ((e.state m).thread t)

variable {e} {t : Thread} {op : Walk} {key : Key} {i j : ℕ}

theorem WalkCall.start (h : WalkCall e t op key i j) :
    (e.state (i + 1)).thread t = .loadHead op key := by
  have hs := e.next_some h.call
  simp only [machine, step] at hs
  split at hs
  · rw [← Option.some.inj hs]
    exact update_self _ _ _
  · cases hs

theorem Walking.next {m : ℕ} (h : Walking e t op key i m)
    (hbusy : ∀ r, (e.state m).thread t ≠ .idle r)
    (hlost : ∀ x, (e.state m).thread t = .exchangeDead key x →
      (e.state (m + 1)).thread t ≠ .idle .absent) : Walking e t op key i (m + 1) := by
  obtain ⟨l, hil, hlm, hload, hleft, hahead⟩ := h
  refine ⟨l, hil, by omega, hload, hleft, ?_⟩
  rcases e.next_cases m with heq | ⟨a, -, hs⟩
  · rw [heq]
    exact hahead
  · by_cases ha : ∃ spurious, a = .access t spurious
    · obtain ⟨spurious, rfl⟩ := ha
      exact hahead.access hbusy hs hlost
    · rw [step_other hs hbusy fun spurious hsp => ha ⟨spurious, hsp⟩]
      exact hahead.frame (step_sound (inv_state e m) hs).2 fun y hy =>
        (frame_le e (Nat.le_of_lt hlm)).published hy.published

theorem WalkCall.walking_succ (h : WalkCall e t op key i j) {m : ℕ} (him : i < m) (hmj : m ≤ j)
    (hm : (e.state m).thread t = .loadHead op key ∨ Walking e t op key i m)
    (hlost : ∀ x, (e.state m).thread t = .exchangeDead key x →
      (e.state (m + 1)).thread t ≠ .idle .absent) :
    (e.state (m + 1)).thread t = .loadHead op key ∨ Walking e t op key i (m + 1) := by
  have hbusy := h.busy m him hmj
  rcases hm with hload | hwalk
  · rcases e.next_cases m with heq | ⟨a, -, hs⟩
    · exact .inl (heq ▸ hload)
    · by_cases ha : ∃ spurious, a = .access t spurious
      · obtain ⟨spurious, rfl⟩ := ha
        simp only [machine, step, LockFreeHashMap.access, hload, map_eq_some_iff] at hs
        obtain ⟨q, hq, heq⟩ := hs
        have hahead := (inv_state e m).ahead_head hq
        have hthread : (e.state (m + 1)).thread t = q := by
          rw [← heq]
          exact update_self _ _ _
        refine .inr ⟨m, him, by omega, hload, fun hq' => ?_, ?_⟩
        · rw [hthread] at hq'
          rw [hq'] at hahead
          exact hahead
        · rw [hthread, ← heq]
          exact hahead
      · exact .inl ((step_other hs hbusy fun spurious hsp => ha ⟨spurious, hsp⟩).trans hload)
  · exact .inr (hwalk.next hbusy hlost)

theorem WalkCall.walking (h : WalkCall e t op key i j) {m : ℕ} (him : i < m) (hmj : m ≤ j) :
    (e.state m).thread t = .loadHead op key ∨ Walking e t op key i m := by
  induction m, him using Nat.le_induction with
  | base => exact .inl h.start
  | succ m him ih =>
    exact h.walking_succ him (by omega) (ih (by omega)) fun x _ => h.busy (m + 1) (by omega) hmj _

/-- A walk that ends at the end of its chain: when it returns, every unmarked node of the
key has entered the map since the walk loaded the head. -/
theorem WalkCall.absent_sound (h : WalkCall e t op key i j)
    (hreturn : (e.state (j + 1)).thread t = .idle .absent)
    (hend : ∀ x, (e.state j).thread t ≠ .exchangeDead key x) :
    ∃ l, i < l ∧ l ≤ j ∧ (e.state l).thread t = .loadHead op key ∧
      (e.state (l + 1)).thread t ≠ .loadHead op key ∧
      ∀ x, Undeleted (e.state (j + 1)).map key x → ¬ InMap (e.state l).map x := by
  have hwalking := h.walking_succ h.lt (Nat.le_refl j) (h.walking h.lt (Nat.le_refl j))
    fun x hx => absurd hx (hend x)
  rcases hwalking with hload | ⟨l, hil, hlj, hload, hleft, hahead⟩
  · rw [hreturn] at hload
    cases hload
  · rw [hreturn] at hahead
    exact ⟨l, hil, by omega, hload, hleft, fun x hu hx => hahead x hx hu⟩

end Call

/-- A find passes the newest of two nodes after it was removed; a third node is pushed,
and then a remove that is already on its way takes the oldest. -/
def passedRun : List (Act (Fin 3) ℕ ℕ) :=
  .insert 1 5 10 :: List.replicate 3 (.access 1 false) ++
    .insert 1 5 11 :: List.replicate 3 (.access 1 false) ++
    .walk .remove 1 5 :: List.replicate 3 (.access 1 false) ++
    .walk .find 0 5 :: List.replicate 2 (.access 0 false) ++
    .walk .remove 1 5 :: List.replicate 4 (.access 1 false) ++
    .insert 2 5 12 :: List.replicate 3 (.access 2 false) ++
    .access 1 false :: List.replicate 3 (.access 0 false)

theorem passedRun_runs :
    ((machine (Fin 3) ℕ ℕ 1).run (machine (Fin 3) ℕ ℕ 1).init passedRun).isSome := by
  decide +kernel

def passed : Execution (machine (Fin 3) ℕ ℕ 1) := .ofRun passedRun passedRun_runs

theorem passed_call : WalkCall passed 0 .find 5 12 27 := by
  refine ⟨rfl, by decide +kernel, fun m hm hmj r hr => ?_⟩
  have hcursor : ∀ m ≤ 27, 12 < m → (passed.state m).thread 0 = .loadHead .find 5 ∨
      ((passed.state m).thread 0).cursor.isSome := by
    decide +kernel
  rcases hcursor m hmj hm with h | h <;> rw [hr] at h <;> cases h

theorem passed_absent : (passed.state 28).thread 0 = .idle .absent := by decide +kernel

theorem passed_walked (x : ℕ) : (passed.state 27).thread 0 ≠ .exchangeDead 5 x := by
  have h : (passed.state 27).thread 0 = .loadNext .find 5 0 := by decide +kernel
  rw [h]
  exact nofun

theorem absent_sound_passed : ∃ l, 12 < l ∧ l ≤ 27 ∧ (passed.state l).thread 0 = .loadHead .find 5 ∧
    (passed.state (l + 1)).thread 0 ≠ .loadHead .find 5 ∧
    ∀ x, Undeleted (passed.state 28).map 5 x → ¬ InMap (passed.state l).map x :=
  passed_call.absent_sound passed_absent passed_walked

/-- A call can report a key absent although an undeleted node of the key was in the map
at every instant of the call. -/
theorem absent_never_empty : ¬ ∀ (e : Execution (machine (Fin 3) ℕ ℕ 1)) (t : Fin 3) (op : Walk)
    (key i j : ℕ), WalkCall e t op key i j → (e.state (j + 1)).thread t = .idle .absent →
    ∃ m, i ≤ m ∧ m ≤ j + 1 ∧ ∀ x, Undeleted (e.state m).map key x → ¬ InMap (e.state m).map x := by
  intro hall
  obtain ⟨m, him, hmj, hm⟩ := hall passed 0 .find 5 12 27 passed_call passed_absent
  have hold : InMap (passed.state 12).map 0 := ⟨0, by decide +kernel, .there (x := 1) (.here 0)⟩
  have hnew : InMap (passed.state 24).map 2 := ⟨0, by decide +kernel, .here 2⟩
  by_cases hlt : m ≤ 24
  · have hlive : Undeleted (passed.state 24).map 5 0 := ⟨⟨5, 10, none, false⟩, by decide +kernel⟩
    have hin := (frame_le passed him).inMap hold
    exact hm 0 ((frame_le passed hlt).undeleted 0 5 hin.published hlive) hin
  · have hlive : Undeleted (passed.state 28).map 5 2 := ⟨⟨5, 12, some 1, false⟩, by decide +kernel⟩
    have hin := (frame_le passed (Nat.le_of_not_le hlt)).inMap hnew
    exact hm 2 ((frame_le passed hmj).undeleted 2 5 hin.published hlive) hin

end Equilibrium.LockFreeHashMap
