import Equilibrium.Containers.LockFreeHashMap

/-! `collect_garbage` frees the marked nodes and leaves the stacks as they are. -/

namespace Equilibrium.LockFreeHashMap

open Library.LinkedChain List Option
open Function (update update_self update_of_ne)

variable {Key Value : Type}

namespace Map

def alive (m : Map Key Value) (x : ℕ) : Bool := (m.nodes x).any fun n => !n.dead

def content (m : Map Key Value) (x : ℕ) : Option (Key × Value × Bool) :=
  (m.nodes x).map fun n => (n.key, n.value, n.dead)

theorem content_eq_some {m : Map Key Value} {x : ℕ} {k : Key} {v : Value} {d : Bool} :
    m.content x = some (k, v, d) ↔
      ∃ n, m.nodes x = some n ∧ n.key = k ∧ n.value = v ∧ n.dead = d := by
  simp [content]

theorem alive_eq (m : Map Key Value) (x : ℕ) : m.alive x = (m.content x).any fun c => !c.2.2 := by
  rw [alive, content]
  cases m.nodes x <;> rfl

theorem entry_eq [DecidableEq Key] (m : Map Key Value) (key : Key) (x : ℕ) :
    m.entry key x = (m.content x).bind fun c =>
      if c.1 = key ∧ c.2.2 = false then some (x, c.2.1) else none := by
  rw [entry, content]
  cases m.nodes x <;> rfl

end Map

/-- What the rest of a walk of `collect_garbage` over bucket `i` does, when `pre` is what it
has left in the bucket and `rest` what it has not visited. -/
structure Swept (m m' : Map Key Value) (i : ℕ) (pre rest : List ℕ) : Prop where
  count : m'.bucketCount = m.bucketCount
  allocated : m'.allocated = m.allocated
  buckets : ∀ b, b ≠ i → m'.buckets b = m.buckets b
  segment : Segment m'.next (m'.buckets i) (pre ++ rest.filter m.alive) none
  content : ∀ x, m'.content x = if x ∈ rest ∧ m.alive x = false then none else m.content x
  next : ∀ x, x ∉ pre ++ rest → m'.next x = m.next x

/-- `p->next = q` -/
@[simps] def Map.relinked (m : Map Key Value) (p : ℕ) (q : Option ℕ) : Map Key Value :=
  { m with nodes := update m.nodes p ((m.nodes p).map fun n => { n with next := q }) }

/-- The map after a dead node `x` is unlinked from its predecessor and freed. -/
def Map.unlinked (m : Map Key Value) (i : ℕ) (prev : Option ℕ) (x : ℕ) : Map Key Value :=
  match prev with
  | some p => (m.relinked p (m.next x)).deleteNode x
  | none => (m.storeBucket i (m.next x)).deleteNode x

theorem next_deleteNode (m : Map Key Value) (x : ℕ) :
    (m.deleteNode x).next = update m.next x none := by
  funext y
  by_cases hy : y = x
  · subst hy
    simp [Map.next]
  · simp [Map.next, hy]

variable {m : Map Key Value} {i x : ℕ} {prev : Option ℕ}

theorem content_unlinked (y : ℕ) :
    (m.unlinked i prev x).content y = if y = x then none else m.content y := by
  by_cases hy : y = x
  · subst hy
    cases prev <;> simp [Map.unlinked, Map.content]
  · rw [if_neg hy]
    cases prev with
    | none => simp [Map.unlinked, Map.content, hy]
    | some p =>
      by_cases hp : y = p
      · subst hp
        simp [Map.unlinked, Map.content, hy, Function.comp_def]
      · simp [Map.unlinked, Map.content, hy, hp]

theorem next_unlinked {m : Map Key Value} {i x y : ℕ} {prev : Option ℕ} (hx : y ≠ x)
    (hp : prev ≠ some y) : (m.unlinked i prev x).next y = m.next y := by
  cases prev with
  | none => simp [Map.unlinked, Map.next, hx]
  | some p =>
    have hyp : y ≠ p := fun h => hp (h ▸ rfl)
    simp [Map.unlinked, Map.next, hx, hyp]

variable {pre rest : List ℕ}

theorem segment_unlinked (h : Segment m.next (m.buckets i) (pre ++ x :: rest) none)
    (hnode : ∀ y ∈ pre, ∃ n, m.nodes y = some n) :
    Segment (m.unlinked i pre.getLast? x).next ((m.unlinked i pre.getLast? x).buckets i)
      (pre ++ rest) none := by
  have hnodup := h.nodup
  have hxpre : x ∉ pre := fun hx =>
    (nodup_append.mp hnodup).2.2 x hx x (by simp) rfl
  have hxrest : x ∉ rest := (nodup_cons.mp (nodup_append.mp hnodup).2.1).1
  rcases eq_nil_or_concat pre with rfl | ⟨l, p, rfl⟩
  · have hnext : ((m.storeBucket i (m.next x)).deleteNode x).next = update m.next x none :=
      next_deleteNode _ _
    have hbucket : ((m.storeBucket i (m.next x)).deleteNode x).buckets i = m.next x :=
      update_self _ _ _
    rw [getLast?_nil, Map.unlinked, hnext, hbucket]
    exact h.2.update hxrest
  · obtain ⟨n, hn⟩ := hnode p (by simp)
    rw [concat_eq_append] at *
    rw [getLast?_append, getLast?_singleton, some_or, Map.unlinked, next_deleteNode]
    rw [append_assoc] at h
    have hstore : (m.relinked p (m.next x)).next = update m.next p (m.next x) := by
      rw [Map.relinked, hn]
      exact Map.next_storeNode m p { n with next := m.next x }
    rw [hstore, append_assoc]
    refine h.unlink.update fun hx => ?_
    rcases mem_append.mp hx with hx | hx
    · exact hxpre (by simp [hx])
    · rcases mem_cons.mp hx with rfl | hx
      · exact hxpre (by simp)
      · exact hxrest hx

theorem sweep_alive {rounds : ℕ} {n : Node Key Value} (hn : m.nodes x = some n)
    (hdead : n.dead = false) :
    Map.sweep i (rounds + 1) m prev (some x) = Map.sweep i rounds m (some x) n.next := by
  rw [Map.sweep, Map.load, hn]
  simp [bind, Except.bind, hdead]

theorem sweep_dead {rounds : ℕ} {n : Node Key Value} (hn : m.nodes x = some n)
    (hdead : n.dead = true) (hprev : ∀ p, prev = some p → ∃ n, m.nodes p = some n) :
    Map.sweep i (rounds + 1) m prev (some x) =
      Map.sweep i rounds (m.unlinked i prev x) prev n.next := by
  have hnext : m.next x = n.next := by rw [Map.next, hn]; rfl
  rw [Map.sweep, Map.load, hn]
  cases prev with
  | none => simp [bind, Except.bind, hdead, Map.unlinked, hnext]
  | some p =>
    obtain ⟨np, hnp⟩ := hprev p rfl
    simp [bind, Except.bind, hdead, Map.unlinked, hnext, Map.storeNext, Map.load, hnp,
      Map.relinked, Map.storeNode]

theorem Swept.cons_alive {m' : Map Key Value} (h : Swept m m' i (pre ++ [x]) rest)
    (halive : m.alive x = true) : Swept m m' i pre (x :: rest) where
  count := h.count
  allocated := h.allocated
  buckets := h.buckets
  segment := by
    rw [filter_cons_of_pos halive]
    simpa using h.segment
  content := fun y => by
    rw [h.content]
    refine if_congr ?_ rfl rfl
    rw [mem_cons]
    constructor
    · exact fun ⟨hy, hd⟩ => ⟨.inr hy, hd⟩
    · rintro ⟨rfl | hy, hd⟩
      · cases halive.symm.trans hd
      · exact ⟨hy, hd⟩
  next := fun y hy => h.next y (by simpa using hy)

theorem Swept.cons_dead {m' : Map Key Value} (h : Swept (m.unlinked i pre.getLast? x) m' i pre rest)
    (halive : m.alive x = false) (hx : x ∉ rest) : Swept m m' i pre (x :: rest) := by
  have hother : ∀ y, y ≠ x → (m.unlinked i pre.getLast? x).content y = m.content y := fun y hy =>
    (content_unlinked y).trans (if_neg hy)
  refine ⟨h.count.trans ?_, h.allocated.trans ?_, fun b hb => (h.buckets b hb).trans ?_, ?_,
    fun y => ?_, fun y hy => ?_⟩
  · cases pre.getLast? <;> rfl
  · cases pre.getLast? <;> rfl
  · cases pre.getLast? with
    | none => exact update_of_ne hb _ _
    | some q => rfl
  · have hfilter : rest.filter (m.unlinked i pre.getLast? x).alive = rest.filter m.alive :=
      filter_congr fun y hy => by
        rw [Map.alive_eq, Map.alive_eq, hother y (ne_of_mem_of_not_mem hy hx)]
    rw [filter_cons_of_neg (by simp [halive]), ← hfilter]
    exact h.segment
  · rw [h.content]
    by_cases hyx : y = x
    · subst hyx
      rw [if_neg fun hy => hx hy.1, content_unlinked, if_pos rfl, if_pos ⟨by simp, halive⟩]
    · rw [hother y hyx, Map.alive_eq, hother y hyx, ← Map.alive_eq]
      simp [hyx]
  · have hyx : y ≠ x := fun heq => hy (by simp [heq])
    refine (h.next y fun hmem => hy ?_).trans (next_unlinked hyx fun hlast => hy ?_)
    · rcases mem_append.mp hmem with hmem | hmem <;> simp [hmem]
    · exact mem_append_left _ (mem_of_getLast? hlast)

theorem sweep_swept {rounds : ℕ} {p : Option ℕ}
    (hseg : Segment m.next (m.buckets i) (pre ++ rest) none) (hp : Segment m.next p rest none)
    (hnode : ∀ x ∈ pre ++ rest, ∃ n, m.nodes x = some n) (hrounds : rest.length ≤ rounds) :
    ∃ m', Map.sweep i rounds m pre.getLast? p = .ok m' ∧ Swept m m' i pre rest := by
  induction rest generalizing m pre p rounds with
  | nil =>
    cases hp
    refine ⟨m, by cases rounds <;> rfl, rfl, rfl, fun _ _ => rfl, hseg, fun x => ?_, fun _ _ => rfl⟩
    simp
  | cons x rest ih =>
    obtain ⟨rfl, hp⟩ := hp
    obtain ⟨n, hn⟩ := hnode x (by simp)
    have hnext : m.next x = n.next := by rw [Map.next, hn]; rfl
    rw [hnext] at hp
    obtain ⟨-, htail, hdisjoint⟩ := nodup_append.mp hseg.nodup
    have hxrest : x ∉ rest := (nodup_cons.mp htail).1
    have halive : m.alive x = !n.dead := by rw [Map.alive, hn]; rfl
    cases rounds with
    | zero => simp at hrounds
    | succ rounds =>
      have hrounds := Nat.le_of_succ_le_succ hrounds
      cases hdead : n.dead with
      | false =>
        have hseg' : Segment m.next (m.buckets i) (pre ++ [x] ++ rest) none := by simpa using hseg
        obtain ⟨m', hm', h⟩ := ih hseg' hp (by simpa using hnode) hrounds
        rw [getLast?_concat] at hm'
        exact ⟨m', (sweep_alive hn hdead).trans hm', h.cons_alive (by rw [halive, hdead]; rfl)⟩
      | true =>
        have hprev : ∀ q, pre.getLast? = some q → ∃ n, m.nodes q = some n := fun q hq =>
          hnode q (mem_append_left _ (mem_of_getLast? hq))
        have hstay : ∀ y ∈ pre ++ rest, y ≠ x := by
          rintro y hy rfl
          rcases mem_append.mp hy with hy | hy
          · exact hdisjoint y hy y (by simp) rfl
          · exact hxrest hy
        have hp' : Segment (m.unlinked i pre.getLast? x).next n.next rest none := by
          refine hp.congr fun y hy => next_unlinked (hstay y (by simp [hy])) fun hlast => ?_
          exact hdisjoint y (mem_of_getLast? hlast) y (by simp [hy]) rfl
        have hnode' : ∀ y ∈ pre ++ rest, ∃ n, (m.unlinked i pre.getLast? x).nodes y = some n := by
          intro y hy
          have hc : (m.unlinked i pre.getLast? x).content y = m.content y :=
            (content_unlinked y).trans (if_neg (hstay y hy))
          obtain ⟨n', hn'⟩ := hnode y (by
            rcases mem_append.mp hy with hy | hy <;> simp [hy])
          rw [Map.content, Map.content, hn'] at hc
          obtain ⟨n'', hn'', -⟩ := map_eq_some_iff.mp hc
          exact ⟨n'', hn''⟩
        obtain ⟨m', hm', h⟩ := ih (segment_unlinked hseg fun y hy => hnode y (by simp [hy])) hp'
          hnode' hrounds
        exact ⟨m', (sweep_dead hn hdead hprev).trans hm',
          h.cons_dead (by rw [halive, hdead]; rfl) hxrest⟩

variable [IntegralKey Key]

/-- The chains after a walk over bucket `i`. -/
def collectedChain (m : Map Key Value) (chain : ℕ → List ℕ) (i : ℕ) : ℕ → List ℕ :=
  update chain i ((chain i).filter m.alive)

variable {chain : ℕ → List ℕ}

omit [IntegralKey Key] in
theorem mem_collectedChain {b : ℕ} :
    x ∈ collectedChain m chain i b ↔ x ∈ chain b ∧ (b = i → m.alive x = true) := by
  by_cases hb : b = i
  · subst hb
    simp [collectedChain]
  · simp [collectedChain, hb]

theorem Swept.chained {m m' : Map Key Value} {chain : ℕ → List ℕ} {i : ℕ} (h : Chained m chain)
    (hs : Swept m m' i [] (chain i)) : Chained m' (collectedChain m chain i) := by
  have hhash : (m'.hash : Key → ℕ) = m.hash := hash_congr hs.count
  have hkept : ∀ {b x}, x ∈ collectedChain m chain i b → m'.content x = m.content x := by
    intro b x hx
    obtain ⟨hb, halive⟩ := mem_collectedChain.mp hx
    rw [hs.content, if_neg]
    rintro ⟨hi, hdead⟩
    rw [halive (h.home_eq hb hi)] at hdead
    cases hdead
  have hback : ∀ {x n'}, m'.nodes x = some n' → ∃ n, m.nodes x = some n ∧ n.key = n'.key ∧
      (x ∈ chain i → m.alive x = true) := by
    intro x n' hx
    have hc := hs.content x
    have hx' : m'.content x = some (n'.key, n'.value, n'.dead) := by rw [Map.content, hx]; rfl
    rw [hx'] at hc
    split at hc
    case isTrue => cases hc
    case isFalse hlive =>
      obtain ⟨n, hn, hkey, -, -⟩ := Map.content_eq_some.mp hc.symm
      exact ⟨n, hn, hkey, fun hmem => by simpa using fun hd => hlive ⟨hmem, hd⟩⟩
  refine ⟨fun b => ?_, fun b x hx => ?_, fun x n' hx => ?_, fun x n' hx => ?_⟩
  · by_cases hb : b = i
    · subst hb
      rw [collectedChain, update_self]
      exact hs.segment
    · rw [hs.buckets b hb, collectedChain, update_of_ne hb]
      refine (h.segment b).congr fun x hx => hs.next x fun hxi => hb (h.home_eq hx ?_)
      simpa using hxi
  · obtain ⟨n, hn, hb⟩ := h.home b x (mem_collectedChain.mp hx).1
    have hc := hkept hx
    rw [Map.content, Map.content, hn] at hc
    obtain ⟨n', hn', heq⟩ := map_eq_some_iff.mp hc
    simp only [Prod.mk.injEq] at heq
    exact ⟨n', hn', by rw [hhash, heq.1, hb]⟩
  · obtain ⟨n, hn, hkey, halive⟩ := hback hx
    have hmem := h.covered x n hn
    rw [hhash, ← hkey]
    exact mem_collectedChain.mpr ⟨hmem, fun hi => halive (hi ▸ hmem)⟩
  · obtain ⟨n, hn, -, -⟩ := hback hx
    rw [hs.allocated]
    exact h.bounded x n hn

variable [DecidableEq Key]

def Stacks.recount (t : Stacks Key Value) (m : Map Key Value) : Stacks Key Value :=
  { t with removed := {x | ∃ n, m.nodes x = some n ∧ n.dead = true} }

section

variable {t : Stacks Key Value} (h : Represents m chain t)
include h

theorem Represents.sweep (i : ℕ) : ∃ m', Map.sweep i m.allocated m none (m.buckets i) = .ok m' ∧
      m'.bucketCount = m.bucketCount ∧ Represents m' (collectedChain m chain i) (t.recount m') ∧
      ∀ b, ∀ x ∈ collectedChain m chain i b, m'.alive x = m.alive x := by
  have hseg : Segment m.next (m.buckets i) ([] ++ chain i) none := h.segment i
  obtain ⟨m', hm', hs⟩ := sweep_swept hseg (h.segment i) (fun x hx => by
    obtain ⟨n, hn, -⟩ := h.home i x hx
    exact ⟨n, hn⟩) (h.length_le i)
  have hkept : ∀ b, ∀ x ∈ collectedChain m chain i b, m'.content x = m.content x := by
    intro b x hx
    obtain ⟨hb, halive⟩ := mem_collectedChain.mp hx
    rw [hs.content, if_neg]
    rintro ⟨hi, hdead⟩
    rw [halive (h.home_eq hb hi)] at hdead
    cases hdead
  refine ⟨m', hm', hs.count, ⟨hs.chained h.toChained, h.inserted.trans hs.allocated.symm,
    fun key => ?_, fun x => Iff.rfl⟩, fun b x hx => ?_⟩
  · have hentry : ∀ x ∈ collectedChain m chain i (m.hash key), m'.entry key x = m.entry key x := by
      intro x hx
      rw [Map.entry_eq, Map.entry_eq, hkept _ x hx]
    rw [hash_congr hs.count, filterMap_congr hentry]
    refine (h.stack key).trans ?_
    by_cases hi : m.hash key = i
    · rw [hi, collectedChain, update_self, filterMap_filter]
      refine filterMap_congr fun x _ => ?_
      split
      case isTrue => rfl
      case isFalse hdead =>
        rw [Map.alive_eq] at hdead
        rw [Map.entry_eq]
        cases hc : m.content x with
        | none => rfl
        | some c =>
          rw [hc, any_some] at hdead
          rw [bind_some, if_neg fun hlive => hdead (by rw [hlive.2]; rfl)]
    · rw [collectedChain, update_of_ne hi]
  · rw [Map.alive_eq, Map.alive_eq, hkept b x hx]

theorem Represents.sweepAll (l : List ℕ) :
    ∃ m' chain', l.foldlM (fun m i => Map.sweep i m.allocated m none (m.buckets i)) m = .ok m' ∧
      m'.bucketCount = m.bucketCount ∧ Represents m' chain' (t.recount m') ∧
      ∀ b, (b ∈ l ∨ ∀ x ∈ chain b, m.alive x = true) → ∀ x ∈ chain' b, m'.alive x = true := by
  induction l generalizing m chain t with
  | nil =>
    refine ⟨m, chain, rfl, rfl, ⟨h.toChained, h.inserted, h.stack, fun x => Iff.rfl⟩,
      fun b hb => hb.resolve_left not_mem_nil⟩
  | cons i l ih =>
    obtain ⟨m₁, hm₁, hcount₁, h₁, halive⟩ := h.sweep i
    obtain ⟨m', chain', hm', hcount, h', hclean⟩ := ih h₁
    refine ⟨m', chain', ?_, hcount.trans hcount₁, h', fun b hb => hclean b ?_⟩
    · rw [foldlM_cons, hm₁]
      exact hm'
    · by_cases hbl : b ∈ l
      · exact .inl hbl
      · refine .inr fun x hx => (halive b x hx).trans ?_
        obtain ⟨hmem, hi⟩ := mem_collectedChain.mp hx
        rcases hb with hb | hb
        · exact hi ((mem_cons.mp hb).resolve_right hbl)
        · exact hb x hmem

theorem Represents.collectGarbage (hcount : 0 < m.bucketCount) :
    ∃ m' chain', m.collectGarbage = .ok m' ∧ m'.bucketCount = m.bucketCount ∧
      Represents m' chain' { t with removed := ∅ } := by
  obtain ⟨m', chain', hm', hcount', h', hclean⟩ := h.sweepAll (range m.bucketCount)
  refine ⟨m', chain', hm', hcount', h'.toChained, h'.inserted, h'.stack, fun x => ?_⟩
  refine iff_of_false (Set.notMem_empty x) ?_
  rintro ⟨n, hn, hdead⟩
  have hlt : m'.hash n.key < m.bucketCount := hcount' ▸ Nat.mod_lt _ (hcount'.symm ▸ hcount)
  have halive := hclean _ (.inl (mem_range.mpr hlt)) x (h'.covered x n hn)
  rw [Map.alive, hn, any_some, hdead] at halive
  cases halive

end

end Equilibrium.LockFreeHashMap
