import Equilibrium.Containers.LockFreeHashMapCollect

/-! Iteration visits the unmarked nodes, bucket by bucket, and the map as a whole is one
stack of values per key. -/

namespace Equilibrium.LockFreeHashMap

open Library.LinkedChain List

variable {Key Value : Type}

/-- The nodes of the buckets after bucket `b`. -/
def later (m : Map Key Value) (chain : ℕ → List ℕ) (b : ℕ) : List ℕ :=
  (List.range' (b + 1) (m.bucketCount - 1 - b)).flatMap chain

theorem later_succ {m : Map Key Value} {chain : ℕ → List ℕ} {b : ℕ}
    (hb : b < m.bucketCount - 1) : later m chain b = chain (b + 1) ++ later m chain (b + 1) :=
  following_succ hb

theorem later_last {m : Map Key Value} {chain : ℕ → List ℕ} {b : ℕ}
    (hb : m.bucketCount - 1 ≤ b) : later m chain b = [] :=
  following_last hb

variable {l : List ℕ}

theorem skipDead_eq {m : Map Key Value} {p : Option ℕ} {rounds : ℕ} (hp : Segment m.next p l none)
    (hl : ∀ x ∈ l, ∃ n, m.nodes x = some n) (hrounds : l.length ≤ rounds) :
    ∃ l', l' <:+ l ∧ m.skipDead rounds p = .ok l'.head? ∧ Segment m.next l'.head? l' none ∧
      l'.filter m.alive = l.filter m.alive ∧ ∀ x ∈ l'.head?, m.alive x = true := by
  induction l generalizing p rounds with
  | nil =>
    cases hp
    exact ⟨[], suffix_refl _, by cases rounds <;> rfl, rfl, rfl, nofun⟩
  | cons x l ih =>
    have hseg := hp
    obtain ⟨rfl, hp⟩ := hp
    obtain ⟨n, hn⟩ := hl x (by simp)
    cases rounds with
    | zero => simp at hrounds
    | succ rounds =>
      have hnext : m.next x = n.next := by rw [Map.next, hn]; rfl
      have halive : m.alive x = !n.dead := by rw [Map.alive, hn]; rfl
      have hskip : m.skipDead (rounds + 1) (some x) =
          if n.dead then m.skipDead rounds n.next else .ok (some x) := by
        rw [Map.skipDead, Map.load, hn]
        rfl
      rw [hskip]
      cases hdead : n.dead with
      | false =>
        rw [hdead] at halive
        exact ⟨x :: l, suffix_refl _, rfl, hseg, rfl, fun y hy => Option.some.inj hy ▸ halive⟩
      | true =>
        rw [hdead] at halive
        obtain ⟨l', hsuffix, hok, hseg', hfilter, hhead⟩ := ih (hnext ▸ hp)
          (fun y hy => hl y (by simp [hy])) (Nat.le_of_succ_le_succ hrounds)
        refine ⟨l', hsuffix.trans (suffix_cons _ _), hok, hseg', ?_, hhead⟩
        rw [hfilter, filter_cons_of_neg (by simp [halive])]

variable [IntegralKey Key]

/-- The iterator designates the first of the unmarked nodes `live` that remain. -/
structure At (m : Map Key Value) (chain : ℕ → List ℕ) (it : Map.Iterator) (live : List ℕ)
    (l : List ℕ) : Prop where
  suffix : ∃ c, l <:+ chain c
  segment : Segment m.next it.currentNode l none
  remaining : (l ++ later m chain it.bucketIndex).filter m.alive = live
  head : it.currentNode = live.head?

variable {m : Map Key Value} {chain : ℕ → List ℕ}

section

variable (h : Chained m chain)
include h

theorem Chained.suffix {c : ℕ} (hl : l <:+ chain c) :
    (∀ x ∈ l, ∃ n, m.nodes x = some n) ∧ l.length ≤ m.allocated := by
  refine ⟨fun x hx => ?_, Nat.le_trans hl.length_le (h.length_le c)⟩
  obtain ⟨n, hn, -⟩ := h.home c x (hl.subset hx)
  exact ⟨n, hn⟩

theorem advanceToLive_at {b rounds c : ℕ} {p : Option ℕ} (hl : l <:+ chain c)
    (hp : Segment m.next p l none) (hrounds : m.bucketCount - b < rounds) :
    ∃ it l', m.advanceToLive rounds ⟨b, p⟩ = .ok it ∧
      At m chain it ((l ++ later m chain b).filter m.alive) l' := by
  induction rounds generalizing b p l c with
  | zero => omega
  | succ rounds ih =>
    obtain ⟨hnode, hlen⟩ := h.suffix hl
    obtain ⟨l', hsuffix, hskip, hseg, hfilter, hhead⟩ := skipDead_eq hp hnode hlen
    have hadvance : m.advanceToLive (rounds + 1) ⟨b, p⟩ =
        if l'.head?.isSome ∨ b ≥ m.bucketCount - 1 then .ok ⟨b, l'.head?⟩
        else m.advanceToLive rounds ⟨b + 1, m.buckets (b + 1)⟩ := by
      rw [Map.advanceToLive, hskip]
      rfl
    rw [hadvance, filter_append, ← hfilter, ← filter_append]
    by_cases hstop : l'.head?.isSome ∨ b ≥ m.bucketCount - 1
    · rw [if_pos hstop]
      refine ⟨_, l', rfl, ⟨c, hsuffix.trans hl⟩, hseg, rfl, ?_⟩
      cases l' with
      | cons x l' =>
        rw [cons_append, filter_cons_of_pos (hhead x rfl)]
        rfl
      | nil =>
        rcases hstop with hstop | hstop
        · cases hstop
        · rw [later_last hstop]
          rfl
    · rw [if_neg hstop]
      obtain ⟨hnone, hb⟩ := not_or.mp hstop
      cases l' with
      | cons x l' => exact absurd rfl hnone
      | nil =>
        rw [nil_append, later_succ (Nat.lt_of_not_le hb)]
        exact ih (suffix_refl _) (h.segment (b + 1)) (by omega)

theorem iterator_at {b c : ℕ} {p : Option ℕ} (hl : l <:+ chain c) (hp : Segment m.next p l none) :
    ∃ it l', m.iterator b p = .ok it ∧
      At m chain it ((l ++ later m chain b).filter m.alive) l' :=
  advanceToLive_at h hl hp (by omega)

theorem iteratorEnd_at :
    ∃ it l', m.iteratorEnd = .ok it ∧ it.currentNode = none ∧ At m chain it [] l' := by
  obtain ⟨it, l', hit, hat⟩ := iterator_at h (c := 0) (nil_suffix)
    rfl
  rw [later_last (Nat.sub_le _ _)] at hat
  exact ⟨it, l', hit, hat.head, hat⟩

theorem beginLoop_at (b k : ℕ) (hbk : b + k = m.bucketCount) :
    ∃ it l', m.beginLoop (range' b k) = .ok it ∧
      At m chain it (((range' b k).flatMap chain).filter m.alive) l' := by
  induction k generalizing b with
  | zero =>
    obtain ⟨it, l', hit, -, hat⟩ := iteratorEnd_at h
    exact ⟨it, l', hit, hat⟩
  | succ k ih =>
    rw [range'_succ, flatMap_cons]
    have hseg := h.segment b
    cases hhead : m.buckets b with
    | none =>
      rw [hhead] at hseg
      have hnil : chain b = [] := Segment.unique hseg rfl
      rw [Map.beginLoop, hhead, hnil, nil_append]
      exact ih (b + 1) (by omega)
    | some node =>
      rw [hhead] at hseg
      obtain ⟨it, l', hit, hat⟩ := iterator_at h (suffix_refl (chain b)) hseg
      have hlen : m.bucketCount - 1 - b = k := by omega
      rw [later, hlen] at hat
      rw [Map.beginLoop, hhead]
      exact ⟨it, l', hit, hat⟩

theorem iterateLoop_eq {it : Map.Iterator} {live : List ℕ} {rounds : ℕ} (hat : At m chain it live l)
    (hrounds : live.length ≤ rounds) :
    ∃ entries, m.iterateLoop rounds it = .ok entries ∧ entries.map (·.node) = live ∧
      ∀ e ∈ entries, ∃ n, m.nodes e.node = some n ∧ n.key = e.key ∧ n.value = e.value := by
  obtain ⟨stop, _, hstop, hnone, -⟩ := iteratorEnd_at h
  induction live generalizing it l rounds with
  | nil =>
    have hcur : it.currentNode = none := hat.head
    refine ⟨[], ?_, rfl, fun e he => absurd he not_mem_nil⟩
    cases rounds with
    | zero =>
      rw [Map.iterateLoop, hstop]
      exact if_pos (hcur.trans hnone.symm)
    | succ rounds =>
      rw [Map.iterateLoop, hstop]
      exact if_pos (hcur.trans hnone.symm)
  | cons x live ih =>
    have hcur : it.currentNode = some x := hat.head
    cases rounds with
    | zero => simp at hrounds
    | succ rounds =>
      obtain ⟨c, hl⟩ := hat.suffix
      have hseg := hat.segment
      rw [hcur] at hseg
      cases l with
      | nil => simp at hseg
      | cons y l =>
        obtain ⟨hxy, hseg⟩ := hseg
        cases hxy
        obtain ⟨n, hn⟩ := (h.suffix hl).1 x (by simp)
        have hnext : m.next x = n.next := by rw [Map.next, hn]; rfl
        rw [hnext] at hseg
        obtain ⟨it', l', hit', hat'⟩ := iterator_at h
          ((suffix_cons x l).trans hl) hseg
        have hlive : (l ++ later m chain it.bucketIndex).filter m.alive = live := by
          have := hat.remaining
          rw [cons_append] at this
          by_cases halive : m.alive x = true
          · rw [filter_cons_of_pos halive] at this
            exact (List.cons.inj this).2
          · have hmem : x ∈ (x :: (l ++ later m chain it.bucketIndex)).filter m.alive := by
              rw [this]
              exact mem_cons_self
            exact absurd (mem_filter.mp hmem).2 halive
        rw [hlive] at hat'
        obtain ⟨entries, hok, hmap, hentry⟩ := ih hat' (Nat.le_of_succ_le_succ hrounds)
        refine ⟨⟨x, n.key, n.value⟩ :: entries, ?_, by rw [map_cons, hmap], fun e he => ?_⟩
        · have hload : m.load x = .ok n := by rw [Map.load, hn]
          have hinc : m.increment it = .ok it' := by
            rw [Map.increment, hcur]
            dsimp only
            rw [hload]
            exact hit'
          have hdesignated : m.designated it = .ok ⟨x, n.key, n.value⟩ := by
            rw [Map.designated, hcur]
            dsimp only
            rw [hload]
            rfl
          have hne : it.currentNode ≠ stop.currentNode := by
            rw [hcur, hnone]
            exact Option.some_ne_none x
          rw [Map.iterateLoop, hstop]
          refine (if_neg hne).trans ?_
          rw [hdesignated, hinc]
          simp [bind, Except.bind, hok]
        · rcases mem_cons.mp he with rfl | he
          · exact ⟨n, hn, rfl, rfl⟩
          · exact hentry e he

end

def liveNodes (m : Map Key Value) (chain : ℕ → List ℕ) : List ℕ :=
  ((List.range' 0 m.bucketCount).flatMap chain).filter m.alive

theorem Chained.liveNodes_nodup (h : Chained m chain) : (liveNodes m chain).Nodup := by
  refine List.Nodup.filter _ (nodup_flatMap.mpr ⟨fun b _ => (h.segment b).nodup, ?_⟩)
  have hrange : (range' 0 m.bucketCount).Pairwise (· ≠ ·) := nodup_range'
  exact hrange.imp fun hbc x hx hx' => hbc (h.home_eq hx hx')

theorem Chained.mem_liveNodes (h : Chained m chain) (hcount : 0 < m.bucketCount) {x : ℕ} :
    x ∈ liveNodes m chain ↔ ∃ n, m.nodes x = some n ∧ n.dead = false := by
  rw [liveNodes, mem_filter, mem_flatMap]
  constructor
  · rintro ⟨⟨b, -, hx⟩, halive⟩
    obtain ⟨n, hn, -⟩ := h.home b x hx
    rw [Map.alive, hn, Option.any_some, Bool.not_eq_true'] at halive
    exact ⟨n, hn, halive⟩
  · rintro ⟨n, hn, hdead⟩
    refine ⟨⟨m.hash n.key, ?_, h.covered x n hn⟩, by rw [Map.alive, hn, Option.any_some, hdead]; rfl⟩
    rw [← range_eq_range', mem_range]
    exact Nat.mod_lt _ hcount

variable [DecidableEq Key]

theorem Represents.mem_stack {t : Stacks Key Value} (h : Represents m chain t) {key : Key}
    {x : ℕ} {v : Value} : (x, v) ∈ t.stack key ↔
      ∃ n, m.nodes x = some n ∧ n.key = key ∧ n.dead = false ∧ n.value = v := by
  rw [h.stack, mem_filterMap]
  constructor
  · rintro ⟨y, -, hy⟩
    obtain ⟨rfl, hn⟩ := entry_eq_some.mp hy
    exact hn
  · rintro ⟨n, hn, rfl, hdead, rfl⟩
    exact ⟨x, h.covered x n hn, entry_eq_some.mpr ⟨rfl, n, hn, rfl, hdead, rfl⟩⟩

theorem Represents.iterate {t : Stacks Key Value} (h : Represents m chain t)
    (hcount : 0 < m.bucketCount) : ∃ entries, m.iterate = .ok entries ∧
      (entries.map (·.node)).Nodup ∧
      ∀ e : Entry Key Value, e ∈ entries ↔ (e.node, e.value) ∈ t.stack e.key := by
  obtain ⟨it, l, hit, hat⟩ := beginLoop_at h.toChained 0 m.bucketCount (Nat.zero_add _)
  have hmem := fun {x} => h.toChained.mem_liveNodes hcount (x := x)
  have hlen : (liveNodes m chain).length ≤ m.allocated := by
    have hsub : liveNodes m chain ⊆ range m.allocated := by
      intro x hx
      obtain ⟨n, hn, -⟩ := hmem.mp hx
      exact mem_range.mpr (h.bounded x n hn)
    have := (subperm_of_subset h.toChained.liveNodes_nodup hsub).length_le
    rwa [length_range] at this
  obtain ⟨entries, hok, hmap, hentry⟩ := iterateLoop_eq h.toChained hat hlen
  refine ⟨entries, ?_, hmap ▸ h.toChained.liveNodes_nodup, fun e => ?_⟩
  · rw [Map.iterate, Map.iteratorBegin, range_eq_range', hit]
    exact hok
  · have hnode : ∀ {x}, x ∈ entries.map (·.node) ↔ ∃ n, m.nodes x = some n ∧ n.dead = false := by
      intro x
      rw [hmap]
      exact hmem
    rw [h.mem_stack]
    constructor
    · intro he
      obtain ⟨n, hn, hkey, hvalue⟩ := hentry e he
      obtain ⟨n', hn', hdead⟩ := hnode.mp (mem_map_of_mem he)
      rw [hn] at hn'
      cases hn'
      exact ⟨n, hn, hkey, hdead, hvalue⟩
    · rintro ⟨n, hn, hkey, hdead, hvalue⟩
      obtain ⟨e', he', heq⟩ := mem_map.mp (hnode.mpr ⟨n, hn, hdead⟩)
      obtain ⟨n', hn', hkey', hvalue'⟩ := hentry e' he'
      rw [heq, hn] at hn'
      cases hn'
      have : e' = e := by
        cases e
        cases e'
        simp_all
      exact this ▸ he'

/-! Runs of calls. -/

theorem represents_construct (count : ℕ) :
    Represents (construct count : Map Key Value) (fun _ => []) Stacks.empty where
  segment := fun _ => rfl
  home := fun _ _ hx => absurd hx not_mem_nil
  covered := nofun
  bounded := nofun
  inserted := rfl
  stack := fun _ => rfl
  removed := fun x => iff_of_false (Set.notMem_empty x) nofun

theorem exec_allowed {t : Stacks Key Value} (h : Represents m chain t) (hcount : 0 < m.bucketCount)
    (call : Call Key Value) : ∃ m' answer t', exec m call = .ok (m', answer) ∧
      t.Allowed call answer t' ∧ m'.bucketCount = m.bucketCount ∧
      ∃ chain', Represents m' chain' t' := by
  cases call with
  | insert failures key value =>
    exact ⟨m.pushed key value, .done, t.push key value, by rw [exec, insert_eq]; rfl, ⟨rfl, rfl⟩, rfl,
      _, h.pushed key value⟩
  | find key =>
    exact ⟨m, _, t, by rw [exec, h.find]; rfl, ⟨rfl, rfl⟩, rfl, _, h⟩
  | remove key =>
    obtain ⟨m', flag, t', hok, hallowed, hcount', h'⟩ := h.remove key
    exact ⟨m', .removed flag, t', by rw [exec, hok]; rfl, hallowed, hcount', _, h'⟩
  | iterate =>
    obtain ⟨entries, hok, hnodup, hmem⟩ := h.iterate hcount
    exact ⟨m, .visited entries, t, by rw [exec, hok]; rfl, ⟨rfl, entries, rfl, hnodup, hmem⟩, rfl,
      _, h⟩
  | collectGarbage =>
    obtain ⟨m', chain', hok, hcount', h'⟩ := h.collectGarbage hcount
    exact ⟨m', .done, _, by rw [exec, hok]; rfl, ⟨rfl, rfl⟩, hcount', chain', h'⟩

/-- The map behaves as one stack per key, and the allocated nodes are those of the
remaining values and those that were removed and not collected. -/
theorem run_stacks (count : ℕ) (hcount : 0 < count) (calls : List (Call Key Value)) :
    ∃ (m : Map Key Value) (answers : List (Answer Key Value)) (t : Stacks Key Value),
      Library.Calls.run exec (construct count) calls = .ok (m, answers) ∧
      Library.Calls.Trace Stacks.Allowed Stacks.empty calls answers t ∧
      ∀ x, (∃ n, m.nodes x = some n) ↔ (∃ key v, (x, v) ∈ t.stack key) ∨ x ∈ t.removed := by
  obtain ⟨m, answers, t, hrun, htrace, hcount', chain, h⟩ := Library.Calls.run_trace
    (fun (m : Map Key Value) t => m.bucketCount = count ∧ ∃ chain, Represents m chain t)
    (fun m t call ⟨hm, chain, h⟩ => by
      obtain ⟨m', answer, t', hok, hallowed, hcount', h'⟩ := exec_allowed h (hm ▸ hcount) call
      exact ⟨m', answer, t', hok, hallowed, hcount'.trans hm, h'⟩)
    ⟨rfl, _, represents_construct count⟩ calls
  refine ⟨m, answers, t, hrun, htrace, fun x => ?_⟩
  rw [h.removed]
  constructor
  · rintro ⟨n, hn⟩
    cases hdead : n.dead with
    | false => exact .inl ⟨n.key, n.value, h.mem_stack.mpr ⟨n, hn, rfl, hdead, rfl⟩⟩
    | true => exact .inr ⟨n, hn, hdead⟩
  · rintro (⟨key, v, hx⟩ | ⟨n, hn, -⟩)
    · obtain ⟨n, hn, -⟩ := h.mem_stack.mp hx
      exact ⟨n, hn⟩
    · exact ⟨n, hn⟩

theorem run_stacks_twoKeys : ∃ (m : Map ℕ ℕ) (answers : List (Answer ℕ ℕ)) (t : Stacks ℕ ℕ),
    Library.Calls.run exec (construct 2)
      [.insert 0 4 10, .insert 1 6 11, .insert 0 4 12, .remove 4, .collectGarbage, .find 4, .iterate]
        = .ok (m, answers) ∧ Library.Calls.Trace Stacks.Allowed Stacks.empty
        [.insert 0 4 10, .insert 1 6 11, .insert 0 4 12, .remove 4, .collectGarbage, .find 4, .iterate]
        answers t ∧
      ∀ x, (∃ n, m.nodes x = some n) ↔ (∃ key v, (x, v) ∈ t.stack key) ∨ x ∈ t.removed :=
  run_stacks 2 (by decide) _

end Equilibrium.LockFreeHashMap
