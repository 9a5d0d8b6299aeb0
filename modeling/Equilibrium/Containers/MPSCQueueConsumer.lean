import Equilibrium.Containers.MPSCQueue

/-! The consumer's calls, the destructor, and what every run of the queue keeps. -/

namespace Equilibrium.MPSCQueue

open Library.Interleaving List
open State (deleteNode destroyValue readValue touch)
open Function (update update_self update_of_ne update_idem)

variable {Thread T : Type} [DecidableEq Thread]

variable {s s' : State Thread T} {k tl : ℕ}

theorem Inv.loadNext (h : Inv s k) {op : ConsumerOp} (hc : s.consumer = .loadNext op tl)
    (hs : consume s = some s') : Inv s' k := by
  obtain rfl : tl = s.tail := by
    have := h.reads
    rwa [hc] at this
  have hfault : (s.touch s.tail).fault = s.fault := by
    simp [h.not_freed h.tail (s.consumer.freedBelow_le k)]
  simp only [consume, hc, Option.some.injEq] at hs
  cases hn : (s.nodes s.tail).next with
  | none =>
    have heq : s' = { s with consumer := .idle, peeked := s.peeked } := by
      rw [← hs, hn]
      simp only [touch] at hfault ⊢
      rw [hfault]
    rw [heq]
    exact h.setConsumer (by rw [hc]; rfl) (by rw [hc]; rfl) (.inl (by rw [hc]; exact le_rfl)) trivial
      h.peeked
  | some nx =>
    have heq : s' = { s with consumer := .take op s.tail nx, peeked := s.peeked } := by
      rw [← hs, hn]
      simp only [touch] at hfault ⊢
      rw [hfault]
    rw [heq]
    exact h.setConsumer (by rw [hc]; rfl) (by rw [hc]; rfl) (.inr (by simp [hn]))
      ⟨rfl, h.next_position h.tail hn⟩ h.peeked

variable {nx : ℕ}

theorem Inv.next_entry (h : Inv s k) (hnx : (ids s)[k + 1]? = some nx)
    (htaken : s.consumer.taken k = k) :
    ∃ e, s.exchanged[k]? = some e ∧ e.node = nx ∧ (s.nodes nx).value = some e.value ∧
      (s.nodes nx).destructions = 0 ∧ (s.nodes nx).freed = false := by
  obtain ⟨e, he, rfl⟩ := ids_succ.mp hnx
  obtain ⟨hval, hdes⟩ := h.queued k e he (by omega)
  exact ⟨e, he, rfl, hval, hdes, h.not_freed hnx (by have := s.consumer.freedBelow_le k; omega)⟩

theorem Inv.length_consumed {s : State Thread T} {k : ℕ} (h : Inv s k)
    (htaken : s.consumer.taken k = k) : s.consumed.length = k := by
  rw [h.consumed, htaken, length_map, length_take, Nat.min_eq_left h.tail_le]

theorem Inv.takePeek {s s' : State Thread T} {k : ℕ} (h : Inv s k) {tl nx : ℕ}
    (hc : s.consumer = .take .peek tl nx) (hs : consume s = some s') : Inv s' k := by
  have hr := h.reads
  rw [hc] at hr
  have htaken : s.consumer.taken k = k := by rw [hc]; rfl
  obtain ⟨e, he, -, hval, -, hfreed⟩ := h.next_entry hr.2 htaken
  have heq : s' = { s with consumer := .idle, peeked := s.peeked ++ [(k, e.value)] } := by
    have := h.length_consumed htaken
    simp only [consume, hc, readValue, hval, touch, hfreed, Bool.or_false,
      Option.some.injEq] at hs
    rw [← hs, this]
  rw [heq]
  refine h.setConsumer (by rw [hc]; rfl) (by rw [hc]; rfl) (.inl (by rw [hc]; exact Nat.le_succ k))
    trivial fun p hp => ?_
  rcases mem_append.mp hp with hp | hp
  · exact h.peeked p hp
  · obtain rfl := mem_singleton.mp hp
    simp [he]

theorem Inv.takeValue (h : Inv s k) {op : ConsumerOp} (hop : op ≠ .peek)
    (hc : s.consumer = .take op tl nx) (hs : consume s = some s') : Inv s' k := by
  have hr := h.reads
  rw [hc] at hr
  have htaken : s.consumer.taken k = k := by rw [hc]; rfl
  have hbelow : s.consumer.freedBelow k = k := by rw [hc]; rfl
  have hlinked : s.consumer.linkedBelow k = k + 1 := by rw [hc]; rfl
  obtain ⟨e, he, henode, hval, hdes, hfreed⟩ := h.next_entry hr.2 htaken
  obtain ⟨m, hm⟩ : ∃ m : Node T, m = ⟨none, (s.nodes nx).next, false, 1⟩ := ⟨_, rfl⟩
  have heq : s' = { s with
      nodes := update s.nodes nx m
      consumer := .storeTail tl nx
      consumed := s.consumed ++ [e.value] } := by
    cases op with
    | peek => exact absurd rfl hop
    | dequeue =>
      simp only [consume, hc, readValue, hval, touch, destroyValue, hfreed, hdes,
        Bool.or_false, Option.isNone_some, Option.some.injEq] at hs
      rw [← hs, hm]
    | removeFront =>
      simp only [consume, hc, readValue, hval, touch, destroyValue, hfreed, hdes,
        Bool.or_false, Option.isNone_some, Option.some.injEq] at hs
      rw [← hs, hm]
  rw [heq]
  have hnode : ∀ {x}, x ≠ nx → update s.nodes nx m x = s.nodes x := fun hx =>
    update_of_ne hx _ _
  have hkeep : ∀ x, (update s.nodes nx m x).next = (s.nodes x).next ∧
      (update s.nodes nx m x).freed = (s.nodes x).freed := by
    intro x
    by_cases hx : x = nx
    · subst hx
      simp [hm, hfreed]
    · rw [hnode hx]
      exact ⟨rfl, rfl⟩
  have hentry : ∀ {i : ℕ} {f : Entry Thread T}, s.exchanged[i]? = some f → i ≠ k → f.node ≠ nx := by
    intro i f hf hi hfn
    have := h.position_inj (ids_succ.mpr ⟨f, hf, hfn⟩) hr.2
    omega
  constructor
  case fault => exact h.fault
  case nodup => exact h.nodup
  case tail => exact h.tail
  case head => exact h.head
  case last => exact (hkeep _).1.trans h.last
  case link =>
    intro i a b ha hb
    simp only [hkeep]
    exact h.link i a b ha hb
  case linking =>
    intro t n p ht
    simp only [hkeep]
    exact h.linking t n p ht
  case link_inj => exact h.link_inj
  case fresh =>
    intro t n v ht
    obtain ⟨hn, hlt, hval'⟩ := h.fresh t n v ht
    refine ⟨hn, hlt, ?_⟩
    dsimp only
    rw [hnode, hval']
    rintro rfl
    exact hn (mem_of_getElem? hr.2)
  case fresh_inj => exact h.fresh_inj
  case bounded => exact h.bounded
  case covered => exact h.covered
  case queued =>
    intro i f hf hi
    simp only [Consumer.taken] at hi
    dsimp only
    rw [hnode (hentry hf (by omega))]
    exact h.queued i f hf (by omega)
  case gone =>
    intro i f hf hi
    simp only [Consumer.taken] at hi
    by_cases hik : i = k
    · subst hik
      cases he.symm.trans hf
      simp [henode, hm]
    · dsimp only
      rw [hnode (hentry hf hik)]
      exact h.gone i f hf (by omega)
  case sentinel =>
    dsimp only
    rw [hnode, h.sentinel]
    rintro rfl
    have := h.position_inj hr.2 (rfl : (ids s)[0]? = some 0)
    omega
  case passed =>
    intro i a ha hi
    rw [(hkeep a).1]
    exact h.passed i a ha (by rw [hlinked]; exact hi)
  case freed =>
    intro i a ha
    rw [(hkeep a).2]
    simp only [Consumer.freedBelow]
    rw [← hbelow]
    exact h.freed i a ha
  case consumed =>
    simp only [Consumer.taken]
    rw [h.consumed, htaken, take_add_one, he]
    simp
  case reads => exact hr
  case calls => exact h.calls
  case peeked => exact h.peeked

theorem Inv.storeTail (h : Inv s k) (hc : s.consumer = .storeTail tl nx) :
    Inv { s with tail := nx, consumer := .deleteTail tl } (k + 1) := by
  have hr := h.reads
  rw [hc] at hr
  obtain ⟨rfl, hnx⟩ := hr
  have htaken : s.consumer.taken k = k + 1 := by rw [hc]; rfl
  have hbelow : s.consumer.freedBelow k = k := by rw [hc]; rfl
  have hlinked : s.consumer.linkedBelow k = k + 1 := by rw [hc]; rfl
  exact { h with
    tail := hnx
    queued := fun i e he hi => h.queued i e he (htaken ▸ hi)
    gone := fun i e he hi => h.gone i e he (htaken ▸ hi)
    passed := fun i a ha hi => h.passed i a ha (hlinked ▸ hi)
    freed := fun i a ha => (h.freed i a ha).trans (by rw [hbelow]; rfl)
    consumed := htaken ▸ h.consumed
    reads := ⟨Nat.succ_pos k, h.tail⟩ }

theorem Inv.deleteTail {s : State Thread T} {k : ℕ} (h : Inv s k) {tl : ℕ}
    (hc : s.consumer = .deleteTail tl) : Inv { s.deleteNode tl with consumer := .idle } k := by
  have hr := h.reads
  rw [hc] at hr
  obtain ⟨hk, htl⟩ := hr
  have hbelow : s.consumer.freedBelow k = k - 1 := by rw [hc]; rfl
  have hnode : ∀ {x}, x ≠ tl → (s.deleteNode tl).nodes x = s.nodes x := fun hx =>
    update_of_ne hx _ _
  have hkeep : ∀ x, ((s.deleteNode tl).nodes x).next = (s.nodes x).next ∧
      ((s.deleteNode tl).nodes x).value = (s.nodes x).value ∧
      ((s.deleteNode tl).nodes x).destructions = (s.nodes x).destructions := by
    intro x
    by_cases hx : x = tl
    · subst hx
      simp
    · rw [hnode hx]
      exact ⟨rfl, rfl, rfl⟩
  constructor
  case fault =>
    have := h.not_freed htl (by omega)
    simp [h.fault, this]
  case nodup => exact h.nodup
  case tail => exact h.tail
  case head => exact h.head
  case last => exact (hkeep _).1.trans h.last
  case link =>
    intro i a b ha hb
    simp only [hkeep]
    exact h.link i a b ha hb
  case linking =>
    intro t n p ht
    simp only [hkeep]
    exact h.linking t n p ht
  case link_inj => exact h.link_inj
  case fresh =>
    intro t n v ht
    obtain ⟨hn, hlt, hval⟩ := h.fresh t n v ht
    refine ⟨hn, hlt, ?_⟩
    rw [hnode, hval]
    rintro rfl
    exact hn (mem_of_getElem? htl)
  case fresh_inj => exact h.fresh_inj
  case bounded => exact h.bounded
  case covered => exact h.covered
  case queued =>
    intro i e he hi
    simp only [hkeep]
    exact h.queued i e he (by rw [hc]; exact hi)
  case gone =>
    intro i e he hi
    simp only [hkeep]
    exact h.gone i e he (by rw [hc]; exact hi)
  case sentinel =>
    simp only [hkeep]
    exact h.sentinel
  case passed =>
    intro i a ha hi
    simp only [hkeep]
    exact h.passed i a ha (by rw [hc]; exact hi)
  case freed =>
    intro i a ha
    simp only [Consumer.freedBelow]
    by_cases hat : a = tl
    · subst hat
      obtain rfl := h.position_inj ha htl
      simp only [State.deleteNode_nodes, update_self, true_iff]
      omega
    · rw [hnode hat, h.freed i a ha, hbelow]
      have hne : i ≠ k - 1 := by
        rintro rfl
        exact hat (Option.some.inj (ha.symm.trans htl))
      omega
  case consumed =>
    have := h.consumed
    rw [hc] at this
    exact this
  case reads => trivial
  case calls => exact h.calls
  case peeked => exact h.peeked

theorem Inv.consume (h : Inv s k) (hs : consume s = some s') : ∃ k', Inv s' k' := by
  cases hc : s.consumer with
  | idle => simp [MPSCQueue.consume, hc] at hs
  | loadNext op tl => exact ⟨k, h.loadNext hc hs⟩
  | take op tl nx =>
    by_cases hop : op = .peek
    · subst hop
      exact ⟨k, h.takePeek hc hs⟩
    · exact ⟨k, h.takeValue hop hc hs⟩
  | storeTail tl nx =>
    cases by simpa [MPSCQueue.consume, hc] using hs
    exact ⟨k + 1, h.storeTail hc⟩
  | deleteTail tl =>
    cases by simpa [MPSCQueue.consume, hc] using hs
    exact ⟨k, h.deleteTail hc⟩

/-! The destructor. -/

/-- A chain of live data nodes, each linked to the next and the last one to nothing. -/
def Spine (s : State Thread T) : List ℕ → Prop
  | [] => True
  | a :: l =>
    (s.nodes a).next = l.head? ∧ (s.nodes a).freed = false ∧ (s.nodes a).value.isSome ∧
      (s.nodes a).destructions = 0 ∧ Spine s l

variable {l : List ℕ}

section

omit [DecidableEq Thread]

theorem Spine.congr (h : Spine s l) (heq : ∀ a ∈ l, s'.nodes a = s.nodes a) : Spine s' l := by
  induction l with
  | nil => trivial
  | cons a l ih =>
    obtain ⟨hnext, hfreed, hval, hdes, hrest⟩ := h
    have ha := heq a mem_cons_self
    refine ⟨?_, ?_, ?_, ?_, ih hrest fun b hb => heq b (mem_cons_of_mem _ hb)⟩
    all_goals rw [ha]
    all_goals assumption

theorem spine_of_positions {s : State Thread T} {l : List ℕ}
    (h : ∀ i a, l[i]? = some a → (s.nodes a).next = l[i + 1]? ∧ (s.nodes a).freed = false ∧
      (s.nodes a).value.isSome ∧ (s.nodes a).destructions = 0) : Spine s l := by
  induction l with
  | nil => trivial
  | cons a l ih =>
    obtain ⟨hnext, hfreed, hval, hdes⟩ := h 0 a rfl
    refine ⟨?_, hfreed, hval, hdes, ih fun i b hb => h (i + 1) b hb⟩
    rw [hnext, head?_eq_getElem?]
    rfl

theorem destroyChain_spine {fuel : ℕ} (hfuel : l.length ≤ fuel) (hnodup : l.Nodup)
    (hfault : s.fault = false) (hspine : Spine s l) :
    ∃ nodes, destroyChain fuel s l.head? = some { s with nodes := nodes } ∧
      (∀ a ∈ l, (nodes a).destructions = 1 ∧ (nodes a).freed = true) ∧
      ∀ a, a ∉ l → nodes a = s.nodes a := by
  induction l generalizing fuel s with
  | nil => exact ⟨s.nodes, by cases fuel <;> rfl, nofun, fun _ _ => rfl⟩
  | cons a l ih =>
    obtain ⟨fuel, rfl⟩ : ∃ n, fuel = n + 1 := ⟨fuel - 1, by simp at hfuel; omega⟩
    obtain ⟨hnext, hfreed, hval, hdes, hrest⟩ := hspine
    obtain ⟨hal, hnodup⟩ := nodup_cons.mp hnodup
    have hnone : (s.nodes a).value.isNone = false := by
      rw [← Option.not_isSome, hval]
      rfl
    obtain ⟨s', hs'⟩ : ∃ s', s' = ((s.touch a).destroyValue a).deleteNode a := ⟨_, rfl⟩
    have hnodes : s'.nodes = update s.nodes a
        { s.nodes a with value := none, destructions := 1, freed := true } := by
      simp only [hs', deleteNode, destroyValue, touch, update_idem,
        update_self, hdes]
    have heq : s' = { s with nodes := s'.nodes } := by
      simp only [hs', deleteNode, destroyValue, touch, update_self,
        hfreed, hnone, Bool.or_false]
    have hsame : ∀ b, b ≠ a → s'.nodes b = s.nodes b := fun b hb => by
      rw [hnodes, update_of_ne hb]
    have hne : ∀ b ∈ l, b ≠ a := fun b hb hba => hal (hba ▸ hb)
    obtain ⟨nodes, hrun, hdone, hkeep⟩ := ih (by simpa using hfuel) hnodup (by rw [heq, hfault])
      (hrest.congr fun b hb => hsame b (hne b hb))
    refine ⟨nodes, ?_, fun b hb => ?_, fun b hb => ?_⟩
    · rw [head?_cons, destroyChain, hnext, ← hs', hrun, heq]
    · rcases mem_cons.mp hb with rfl | hb
      · rw [hkeep b hal, hnodes, update_self]
        exact ⟨rfl, rfl⟩
      · exact hdone b hb
    · rw [mem_cons, not_or] at hb
      rw [hkeep b hb.2, hsame b hb.1]

end

theorem Inv.next_eq (h : Inv s k) (hlinked : ∀ t n p, s.producer t ≠ .link n p) {i a : ℕ}
    (ha : (ids s)[i]? = some a) : (s.nodes a).next = (ids s)[i + 1]? := by
  cases hb : (ids s)[i + 1]? with
  | some b =>
    rcases h.link i a b ha hb with hn | ⟨-, t, ht⟩
    · exact hn
    · exact absurd ht (hlinked t b a)
  | none =>
    have hlt := (List.getElem?_eq_some_iff.mp ha).1
    have hge := List.getElem?_eq_none_iff.mp hb
    rw [length_ids] at hlt hge
    obtain rfl : i = s.exchanged.length := by omega
    cases ha.symm.trans h.head
    exact h.last

theorem Inv.spine (h : Inv s k) (hlinked : ∀ t n p, s.producer t ≠ .link n p)
    (hc : s.consumer = .idle) : Spine s ((ids s).drop (k + 1)) := by
  refine spine_of_positions fun i a ha => ?_
  rw [getElem?_drop] at ha ⊢
  have hpos : k + 1 + i = k + i + 1 := by omega
  obtain ⟨e, he, rfl⟩ := ids_succ.mp (hpos ▸ ha)
  have htaken : s.consumer.taken k = k := by rw [hc]; rfl
  obtain ⟨hval, hdes⟩ := h.queued (k + i) e he (by omega)
  refine ⟨h.next_eq hlinked ha, h.not_freed ha ?_, by rw [hval]; rfl, hdes⟩
  have := s.consumer.freedBelow_le k
  omega

theorem Inv.length_drop_le (h : Inv s k) (n : ℕ) : ((ids s).drop n).length ≤ s.allocated := by
  have hsub : ids s ⊆ range s.allocated := fun x hx => mem_range.mpr (h.bounded x hx)
  have hle := (subperm_of_subset h.nodup hsub).length_le
  rw [length_range] at hle
  rw [length_drop]
  omega

theorem Inv.destructor (h : Inv s k) (hidle : ∀ t, s.producer t = .idle) (hc : s.consumer = .idle) :
    ∃ nodes, destructor s = some { s with nodes := nodes } ∧
      ∀ x, 0 < x → x < s.allocated → (nodes x).destructions = 1 ∧ (nodes x).freed = true := by
  have hlinked : ∀ t n p, s.producer t ≠ .link n p := fun t n p => by
    rw [hidle t]
    exact nofun
  have hbelow : s.consumer.freedBelow k = k := by rw [hc]; rfl
  have htaken : s.consumer.taken k = k := by rw [hc]; rfl
  have htail : (s.nodes s.tail).freed = false := h.not_freed h.tail (by omega)
  have hdrop : ∀ {j a : ℕ}, (ids s)[j]? = some a → (a ∈ (ids s).drop (k + 1) ↔ k < j) := by
    intro j a ha
    constructor
    · intro hmem
      obtain ⟨i, hi⟩ := getElem?_of_mem hmem
      rw [getElem?_drop] at hi
      have := h.position_inj ha hi
      omega
    · intro hlt
      refine mem_of_getElem? (i := j - (k + 1)) ?_
      rw [getElem?_drop, show k + 1 + (j - (k + 1)) = j by omega, ha]
  obtain ⟨s₁, hs₁⟩ : ∃ s₁, s₁ = (s.touch s.tail).deleteNode s.tail := ⟨_, rfl⟩
  have hnodes : s₁.nodes = update s.nodes s.tail { s.nodes s.tail with freed := true } := by
    rw [hs₁]
    rfl
  have heq : s₁ = { s with nodes := s₁.nodes } := by
    simp only [hs₁, deleteNode, touch, htail, Bool.or_false]
  have hspine : Spine s₁ ((ids s).drop (k + 1)) := (h.spine hlinked hc).congr fun a ha => by
    rw [hnodes, update_of_ne]
    rintro rfl
    exact absurd ((hdrop h.tail).mp ha) (Nat.lt_irrefl k)
  obtain ⟨nodes, hrun, hdone, hkeep⟩ := destroyChain_spine (h.length_drop_le (k + 1))
    (h.nodup.sublist (drop_sublist _ _)) (by rw [heq, h.fault]) hspine
  refine ⟨nodes, ?_, fun x hx hlt => ?_⟩
  · rw [MPSCQueue.destructor, h.next_eq hlinked h.tail, ← hs₁, ← List.head?_drop, hrun, heq]
  · rcases h.covered x hlt with hmem | ⟨t, v, ht⟩
    · obtain ⟨j, hj⟩ := getElem?_of_mem hmem
      obtain ⟨j, rfl⟩ : ∃ i, j = i + 1 := by
        cases j with
        | zero => exact absurd (Option.some.inj hj) hx.ne
        | succ j => exact ⟨j, rfl⟩
      rcases Nat.lt_or_ge k (j + 1) with hk | hk
      · exact hdone x ((hdrop hj).mpr hk)
      · rw [hkeep x ((hdrop hj).not.mpr (by omega)), hnodes]
        obtain ⟨e, he, rfl⟩ := ids_succ.mp hj
        have hgone := h.gone j e he (by omega)
        by_cases hxt : e.node = s.tail
        · rw [hxt] at hgone
          rw [hxt, update_self]
          exact ⟨hgone, rfl⟩
        · rw [update_of_ne hxt]
          refine ⟨hgone, (h.freed (j + 1) e.node hj).mpr ?_⟩
          have hne : j + 1 ≠ k := by
            rintro rfl
            exact hxt (Option.some.inj (hj.symm.trans h.tail))
          omega
    · simp [hidle t] at ht

/-! Runs. -/

/-- The values met on the walk from `x` along the links. -/
def contents (s : State Thread T) : ℕ → Option ℕ → List (Option T)
  | 0, _ => []
  | _, none => []
  | fuel + 1, some x => (s.nodes x).value :: contents s fuel (s.nodes x).next

omit [DecidableEq Thread] in
theorem contents_spine {s : State Thread T} {l : List ℕ} {fuel : ℕ} (hfuel : l.length ≤ fuel)
    (h : Spine s l) : contents s fuel l.head? = l.map fun x => (s.nodes x).value := by
  induction l generalizing fuel with
  | nil => cases fuel <;> rfl
  | cons a l ih =>
    obtain ⟨fuel, rfl⟩ : ∃ n, fuel = n + 1 := ⟨fuel - 1, by simp at hfuel; omega⟩
    rw [head?_cons, contents, h.1, ih (by simpa using hfuel) h.2.2.2.2, map_cons]

/-- What holds in every state of a queue with one consumer. -/
structure Sound [Fintype Thread] (s : State Thread T) : Prop where
  /-- No freed node was touched, no value destroyed twice or read before it was there. -/
  no_fault : s.fault = false
  fifo : s.consumed <+: s.exchanged.map (·.value)
  producer_order : ∀ t, s.calls t =
    (s.exchanged.filter (fun e => e.producer = t)).map (·.value) ++ (s.producer t).pending
  peeked : ∀ p ∈ s.peeked, (s.exchanged[p.1]?).map (·.value) = some p.2
  /-- With no producer between its two steps the links lead to all that is not consumed yet. -/
  nothing_lost : s.destroyed = false → s.consumer = .idle → (∀ t n p, s.producer t ≠ .link n p) →
    contents s s.allocated (s.nodes s.tail).next =
      (s.exchanged.drop s.consumed.length).map fun e => some e.value
  destroyed_once : s.destroyed = false → ∀ i e, s.exchanged[i]? = some e →
    (s.nodes e.node).destructions = if i < s.consumed.length then 1 else 0
  destructor_ends : s.destroyed = false → s.consumer = .idle → (∀ t, s.producer t = .idle) →
    (step s .destroy).isSome
  torn_down : s.destroyed = true → ∀ x, 0 < x → x < s.allocated →
    (s.nodes x).destructions = 1 ∧ (s.nodes x).freed = true

theorem Inv.taken_le (h : Inv s k) : s.consumer.taken k ≤ s.exchanged.length := by
  have hk := h.tail_le
  have hr := h.reads
  cases hc : s.consumer with
  | storeTail tl nx =>
    rw [hc] at hr
    have := (List.getElem?_eq_some_iff.mp hr.2).1
    rw [length_ids] at this
    simp only [Consumer.taken]
    omega
  | _ => exact hk

theorem Inv.length_consumed_eq (h : Inv s k) : s.consumed.length = s.consumer.taken k := by
  rw [h.consumed, length_map, length_take, Nat.min_eq_left h.taken_le]

theorem Inv.sound [Fintype Thread] (h : Inv s k) (hd : s.destroyed = false) : Sound s where
  no_fault := h.fault
  fifo := by
    rw [h.consumed]
    exact (List.take_prefix _ _).map _
  producer_order := h.calls
  peeked := h.peeked
  nothing_lost := by
    intro _ hc hlinked
    have htaken : s.consumer.taken k = k := by rw [hc]; rfl
    rw [h.next_eq hlinked h.tail, ← List.head?_drop,
      contents_spine (h.length_drop_le (k + 1)) (h.spine hlinked hc), h.length_consumed_eq, htaken]
    have hdrop : (ids s).drop (k + 1) = (s.exchanged.drop k).map (·.node) := by
      simp [ids]
    rw [hdrop, List.map_map]
    refine map_congr_left fun e he => ?_
    obtain ⟨i, hi⟩ := getElem?_of_mem he
    rw [getElem?_drop] at hi
    exact (h.queued _ e hi (by omega)).1
  destroyed_once := by
    intro _ i e he
    rw [h.length_consumed_eq]
    split_ifs with hi
    · exact h.gone i e he hi
    · exact (h.queued i e he (by omega)).2
  destructor_ends := by
    intro _ hc hidle
    obtain ⟨nodes, hrun, -⟩ := h.destructor hidle hc
    simp [step, hd, hc, hidle, hrun]
  torn_down := fun hd' => absurd (hd.symm.trans hd') (by decide)

theorem Inv.sound_destroy [Fintype Thread] (h : Inv s k) (hd : s.destroyed = false)
    (hidle : ∀ t, s.producer t = .idle) (hc : s.consumer = .idle)
    (hs : MPSCQueue.destructor s = some s') : Sound { s' with destroyed := true } := by
  obtain ⟨nodes, hrun, hdone⟩ := h.destructor hidle hc
  cases hrun.symm.trans hs
  have hsound := h.sound hd
  exact ⟨hsound.no_fault, hsound.fifo, hsound.producer_order, hsound.peeked, nofun, nofun, nofun,
    fun _ => hdone⟩

omit [DecidableEq Thread] in
theorem consume_destroyed (h : consume s = some s') : s'.destroyed = s.destroyed := by
  unfold consume at h
  split at h
  · exact nomatch h
  · exact Option.some.inj h ▸ rfl
  · cases h
    unfold readValue
    split <;> rfl
  · cases h
    unfold readValue
    split <;> rfl
  · exact Option.some.inj h ▸ rfl
  · exact Option.some.inj h ▸ rfl

/-- Either the queue lives and is in order, or its destructor was the last step. -/
def Good [Fintype Thread] (s : State Thread T) : Prop :=
  (s.destroyed = false ∧ ∃ k, Inv s k) ∨
    (s.destroyed = true ∧ s.consumer = .idle ∧ (∀ t, s.producer t = .idle) ∧ Sound s)

theorem good_step [Fintype Thread] {s s' : State Thread T} {a : Act Thread T} (h : Good s)
    (hs : step s a = some s') : Good s' := by
  rcases h with ⟨hd, k, h⟩ | ⟨hd, hc, hidle, -⟩
  · cases a with
    | enqueue t v =>
      simp only [step, Option.ite_none_right_eq_some, Option.some.injEq] at hs
      obtain ⟨⟨-, ht⟩, rfl⟩ := hs
      exact .inl ⟨hd, k, h.newNode ht⟩
    | produce t =>
      cases ht : s.producer t with
      | idle => simp [step, produce, ht] at hs
      | exchange n v =>
        cases by simpa [step, produce, ht] using hs
        exact .inl ⟨hd, k, h.exchangeHead ht⟩
      | link n prev =>
        cases by simpa [step, produce, ht] using hs
        exact .inl ⟨hd, k, h.storeNext ht⟩
    | call op =>
      simp only [step, Option.ite_none_right_eq_some, Option.some.injEq] at hs
      obtain ⟨⟨-, hc⟩, rfl⟩ := hs
      exact .inl ⟨hd, k, h.setConsumer (by rw [hc]; rfl) (by rw [hc]; rfl)
        (.inl (by rw [hc]; exact le_rfl)) rfl h.peeked⟩
    | consume => exact .inl ⟨(consume_destroyed hs).trans hd, h.consume hs⟩
    | destroy =>
      simp only [step, Option.ite_none_right_eq_some, Option.map_eq_some_iff] at hs
      obtain ⟨⟨-, hc, hidle⟩, s₁, hs₁, rfl⟩ := hs
      obtain ⟨nodes, hrun, -⟩ := h.destructor hidle hc
      have hsound := h.sound_destroy hd hidle hc hs₁
      cases hrun.symm.trans hs₁
      exact .inr ⟨rfl, hc, hidle, hsound⟩
  · cases a with
    | enqueue t v => simp [step, hd] at hs
    | produce t => simp [step, produce, hidle t] at hs
    | call op => simp [step, hd] at hs
    | consume => simp [step, consume, hc] at hs
    | destroy => simp [step, hd] at hs

/-- Any number of producers and one consumer, at every step of every run. -/
theorem reachable_sound (Thread T : Type) [DecidableEq Thread] [Fintype Thread]
    {s : State Thread T} (h : (machine Thread T).Reachable s) : Sound s := by
  have hgood : Good s := h.invariant (.inl ⟨rfl, 0, inv_init⟩) fun _ _ _ => good_step
  rcases hgood with ⟨hd, k, hinv⟩ | ⟨-, -, -, hsound⟩
  · exact hinv.sound hd
  · exact hsound

/-- The second producer links first, so the consumer finds the queue empty once; the
value it has not taken is destroyed with the queue. -/
def disconnectedRun : List (Act Bool ℕ) :=
  [.enqueue false 7, .enqueue true 8, .produce false, .produce true, .produce true,
    .call .dequeue, .consume, .produce false, .call .dequeue, .consume, .consume, .consume,
    .consume, .destroy]

theorem reachable_sound_disconnected : ∃ s : State Bool ℕ,
    (machine Bool ℕ).run (machine Bool ℕ).init disconnectedRun = some s ∧
      s.consumed = [7] ∧ s.destroyed = true ∧ Sound s := by
  have hrun : ((machine Bool ℕ).run (machine Bool ℕ).init disconnectedRun).map
      (fun s => (s.consumed, s.destroyed)) = some ([7], true) := by decide
  obtain ⟨s, hs, heq⟩ := Option.map_eq_some_iff.mp hrun
  obtain ⟨hconsumed, hdestroyed⟩ := Prod.mk.inj heq
  exact ⟨s, hs, hconsumed, hdestroyed, reachable_sound Bool ℕ (.run .init hs)⟩

end Equilibrium.MPSCQueue
