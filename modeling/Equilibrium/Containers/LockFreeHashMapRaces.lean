import Equilibrium.Containers.LockFreeHashMap
import Equilibrium.Library.Interleaving

/-! `insert`, `find` and `remove` of the map by any number of threads. Every access of
an atomic is one step; keys and values of a node never change after its constructor and
are read with the access before them. -/

namespace Equilibrium.LockFreeHashMap

open Library.Interleaving Library.LinkedChain Option
open Function (update update_self update_of_ne)

/-- The two calls that walk a bucket. -/
inductive Walk where
  | find
  | remove
  deriving DecidableEq

inductive Reply (Value : Type) where
  | done
  | absent
  | found (value : Value)
  | removed
  deriving DecidableEq

/-- The next access of a thread; an idle one keeps the reply of its last call. -/
inductive Pc (Key Value : Type) where
  | idle (reply : Reply Value)
  | insertLoad (index new : ℕ)
  | insertStore (index new : ℕ) (oldHead : Option ℕ)
  | insertExchange (index new : ℕ) (oldHead : Option ℕ)
  | loadHead (op : Walk) (key : Key)
  | loadDead (op : Walk) (key : Key) (head : ℕ)
  | exchangeDead (key : Key) (head : ℕ)
  | loadNext (op : Walk) (key : Key) (head : ℕ)
  deriving DecidableEq

structure State (Thread Key Value : Type) where
  map : Map Key Value
  thread : Thread → Pc Key Value

inductive Act (Thread Key Value : Type) where
  | insert (t : Thread) (key : Key) (value : Value)
  | walk (op : Walk) (t : Thread) (key : Key)
  /-- A weak exchange may fail spuriously. -/
  | access (t : Thread) (spurious : Bool)

variable {Thread Key Value : Type} [DecidableEq Thread] [IntegralKey Key] [DecidableEq Key]

@[simps] def State.goto (s : State Thread Key Value) (t : Thread) (p : Pc Key Value) :
    State Thread Key Value :=
  { s with thread := update s.thread t p }

/-- The head of the loop in `find` and `remove`, with the comparison of the keys. -/
def visit (m : Map Key Value) (op : Walk) (key : Key) : Option ℕ → Option (Pc Key Value)
  | none => some (.idle .absent)
  | some x => (m.nodes x).map fun n =>
    if n.key = key then .loadDead op key x else .loadNext op key x

def access (s : State Thread Key Value) (t : Thread) (spurious : Bool) :
    Option (State Thread Key Value) :=
  match s.thread t with
  | .idle _ => none
  | .insertLoad index new => some (s.goto t (.insertStore index new (s.map.buckets index)))
  | .insertStore index new oldHead =>
    (s.map.nodes new).map fun n =>
      { s.goto t (.insertExchange index new oldHead) with
        map := s.map.storeNode new { n with next := oldHead } }
  | .insertExchange index new oldHead =>
    if spurious = false ∧ s.map.buckets index = oldHead then
      some { s.goto t (.idle .done) with map := s.map.storeBucket index (some new) }
    else some (s.goto t (.insertStore index new (s.map.buckets index)))
  | .loadHead op key => (visit s.map op key (s.map.buckets (s.map.hash key))).map (s.goto t)
  | .loadDead op key x =>
    (s.map.nodes x).map fun n =>
      if n.dead then s.goto t (.loadNext op key x)
      else match op with
        | .find => s.goto t (.idle (.found n.value))
        | .remove => s.goto t (.exchangeDead key x)
  | .exchangeDead _ x =>
    (s.map.nodes x).map fun n =>
      if n.dead then s.goto t (.idle .absent)
      else { s.goto t (.idle .removed) with map := s.map.storeNode x { n with dead := true } }
  | .loadNext op key x =>
    (s.map.nodes x).bind fun n => (visit s.map op key n.next).map (s.goto t)

def step (s : State Thread Key Value) : Act Thread Key Value → Option (State Thread Key Value)
  | .insert t key value =>
    match s.thread t with
    | .idle _ =>
      some { s.goto t (.insertLoad (s.map.hash key) s.map.allocated) with
        map := s.map.newNode key value }
    | _ => none
  | .walk op t key =>
    match s.thread t with
    | .idle _ => some (s.goto t (.loadHead op key))
    | _ => none
  | .access t spurious => access s t spurious

def machine (Thread Key Value : Type) [DecidableEq Thread] [IntegralKey Key] [DecidableEq Key]
    (count : ℕ) : Machine (State Thread Key Value) (Act Thread Key Value) where
  init := ⟨construct count, fun _ => .idle .done⟩
  step := step

/-! What holds in every state. -/

def InMap (m : Map Key Value) (x : ℕ) : Prop :=
  ∃ b < m.bucketCount, Reach m.next (m.buckets b) x

def Undeleted (m : Map Key Value) (key : Key) (x : ℕ) : Prop :=
  ∃ n, m.nodes x = some n ∧ n.key = key ∧ n.dead = false

def Published (m : Map Key Value) (x : ℕ) : Prop := ∃ b, Reach m.next (m.buckets b) x

/-- The bucket and the node of an `insert` that has not published its node. -/
def Pc.pending : Pc Key Value → Option (ℕ × ℕ)
  | .insertLoad index new => some (index, new)
  | .insertStore index new _ => some (index, new)
  | .insertExchange index new _ => some (index, new)
  | _ => none

/-- The node that a walk reads next. -/
def Pc.cursor : Pc Key Value → Option ℕ
  | .loadDead _ _ x => some x
  | .exchangeDead _ x => some x
  | .loadNext _ _ x => some x
  | _ => none

structure Inv (s : State Thread Key Value) : Prop where
  home : ∀ b x, Reach s.map.next (s.map.buckets b) x →
    ∃ n, s.map.nodes x = some n ∧ s.map.hash n.key = b
  bounded : ∀ x n, s.map.nodes x = some n → x < s.map.allocated
  pending : ∀ t b x, (s.thread t).pending = some (b, x) →
    ¬ Published s.map x ∧ ∃ n, s.map.nodes x = some n ∧ s.map.hash n.key = b
  pending_inj : ∀ t u b c x, (s.thread t).pending = some (b, x) →
    (s.thread u).pending = some (c, x) → t = u
  cursor : ∀ t x, (s.thread t).cursor = some x → Published s.map x
  stored : ∀ t b x p, s.thread t = .insertExchange b x p → s.map.next x = p

/-- What a step of any thread leaves of the published nodes. -/
structure Frame (m m' : Map Key Value) : Prop where
  count : m'.bucketCount = m.bucketCount
  reach : ∀ b x, Reach m.next (m.buckets b) x → Reach m'.next (m'.buckets b) x
  next : ∀ x, Published m x → m'.next x = m.next x
  undeleted : ∀ x key, Published m x → Undeleted m' key x → Undeleted m key x

variable {m m' : Map Key Value} {x : ℕ}

section

omit [IntegralKey Key] [DecidableEq Key]

theorem reach_of_unpublished (hx : ¬ Published m x) (hbuckets : m'.buckets = m.buckets)
    (hnodes : ∀ y, y ≠ x → m'.nodes y = m.nodes y) {b y : ℕ} :
    Reach m'.next (m'.buckets b) y ↔ Reach m.next (m.buckets b) y := by
  rw [hbuckets]
  refine reach_congr fun z hz => next_congr (hnodes z ?_)
  rintro rfl
  exact hx ⟨b, hz⟩

theorem frame_of_unpublished (hx : ¬ Published m x) (hcount : m'.bucketCount = m.bucketCount)
    (hbuckets : m'.buckets = m.buckets) (hnodes : ∀ y, y ≠ x → m'.nodes y = m.nodes y) :
    Frame m m' where
  count := hcount
  reach := fun b y hy => (reach_of_unpublished hx hbuckets hnodes).mpr hy
  next := fun y hy => next_congr (hnodes y fun h => hx (h ▸ hy))
  undeleted := fun y key hy h => by
    rwa [Undeleted, hnodes y fun h => hx (h ▸ hy)] at h

theorem frame_refl (m : Map Key Value) : Frame m m :=
  ⟨rfl, fun _ _ h => h, fun _ _ => rfl, fun _ _ _ h => h⟩

theorem Frame.published (h : Frame m m') (hx : Published m x) : Published m' x :=
  ⟨hx.choose, h.reach _ _ hx.choose_spec⟩

theorem Frame.inMap (h : Frame m m') (hx : InMap m x) : InMap m' x := by
  obtain ⟨b, hb, hx⟩ := hx
  exact ⟨b, h.count.symm ▸ hb, h.reach b x hx⟩

theorem InMap.published (h : InMap m x) : Published m x :=
  ⟨h.choose, h.choose_spec.2⟩

end

variable {n : Node Key Value}

section

omit [IntegralKey Key] [DecidableEq Key]

theorem frame_mark (hn : m.nodes x = some n) : Frame m (m.storeNode x { n with dead := true }) where
  count := rfl
  reach := fun b y hy => by rwa [next_mark hn]
  next := fun y _ => by rw [next_mark hn]
  undeleted := fun y key _ ⟨n', hn', hkey, hdead⟩ => by
    by_cases hy : y = x
    · subst hy
      rw [Map.storeNode_nodes, update_self] at hn'
      cases hn'
      cases hdead
    · rw [Map.storeNode_nodes, update_of_ne hy] at hn'
      exact ⟨n', hn', hkey, hdead⟩

theorem Frame.trans {m₁ m₂ m₃ : Map Key Value} (h : Frame m₁ m₂) (h' : Frame m₂ m₃) :
    Frame m₁ m₃ where
  count := h'.count.trans h.count
  reach := fun b x hx => h'.reach b x (h.reach b x hx)
  next := fun x hx => (h'.next x (h.published hx)).trans (h.next x hx)
  undeleted := fun x key hx hu =>
    h.undeleted x key hx (h'.undeleted x key (h.published hx) hu)

theorem reach_publish {m : Map Key Value} {index new : ℕ} (hnext : m.next new = m.buckets index)
    {b y : ℕ} : Reach m.next ((m.storeBucket index (some new)).buckets b) y ↔
      (b = index ∧ y = new) ∨ Reach m.next (m.buckets b) y := by
  by_cases hb : b = index
  · subst hb
    simp [reach_some, hnext]
  · simp [hb]

end

namespace Inv

variable {s : State Thread Key Value}

omit [DecidableEq Key] [DecidableEq Thread] in
theorem of_nodes (h : Inv s) {m' : Map Key Value} (hx : ¬ Published s.map x)
    (hbuckets : m'.buckets = s.map.buckets) (hcount : m'.bucketCount = s.map.bucketCount)
    (hnodes : ∀ y, y ≠ x → m'.nodes y = s.map.nodes y) (hn : m'.nodes x = some n)
    (hallocated : s.map.allocated ≤ m'.allocated) (hlt : x < m'.allocated)
    (hpending : ∀ t b, (s.thread t).pending = some (b, x) → s.map.hash n.key = b)
    (hstored : ∀ t b p, s.thread t ≠ .insertExchange b x p) : Inv { s with map := m' } where
  home := fun b y hy => by
    rw [reach_of_unpublished hx hbuckets hnodes] at hy
    rw [hnodes y fun hyx => hx ⟨b, hyx ▸ hy⟩, hash_congr hcount]
    exact h.home b y hy
  bounded := fun y n' hy => by
    by_cases hyx : y = x
    · exact hyx ▸ hlt
    · rw [hnodes y hyx] at hy
      exact Nat.lt_of_lt_of_le (h.bounded y n' hy) hallocated
  pending := fun t b y hy => by
    obtain ⟨hpub, n', hn', hb⟩ := h.pending t b y hy
    refine ⟨fun ⟨c, hc⟩ => hpub ⟨c, (reach_of_unpublished hx hbuckets hnodes).mp hc⟩, ?_⟩
    rw [hash_congr hcount]
    by_cases hyx : y = x
    · subst hyx
      exact ⟨n, hn, hpending t b hy⟩
    · exact ⟨n', (hnodes y hyx).trans hn', hb⟩
  pending_inj := h.pending_inj
  cursor := fun t y hy => by
    obtain ⟨b, hb⟩ := h.cursor t y hy
    exact ⟨b, (reach_of_unpublished hx hbuckets hnodes).mpr hb⟩
  stored := fun t b y p hy => by
    have hyx : y ≠ x := fun hyx => hstored t b p (hyx ▸ hy)
    exact (next_congr (hnodes y hyx)).trans (h.stored t b y p hy)

variable {t : Thread}

section

omit [DecidableEq Key]

theorem goto (h : Inv s) {t : Thread} {p : Pc Key Value}
    (hp : ∀ b x, p.pending = some (b, x) → ¬ Published s.map x ∧
      (∃ n, s.map.nodes x = some n ∧ s.map.hash n.key = b) ∧
      ∀ u c, (s.thread u).pending = some (c, x) → u = t)
    (hc : ∀ x, p.cursor = some x → Published s.map x)
    (hs : ∀ b x q, p = .insertExchange b x q → s.map.next x = q) : Inv (s.goto t p) where
  home := h.home
  bounded := h.bounded
  pending := fun u b x hu => by
    by_cases hut : u = t
    · subst hut
      rw [State.goto_thread, update_self] at hu
      exact ⟨(hp b x hu).1, (hp b x hu).2.1⟩
    · rw [State.goto_thread, update_of_ne hut] at hu
      exact h.pending u b x hu
  pending_inj := fun u v b c x hu hv => by
    rw [State.goto_thread] at hu hv
    by_cases hut : u = t
    · by_cases hvt : v = t
      · rw [hut, hvt]
      · subst hut
        rw [update_self] at hu
        rw [update_of_ne hvt] at hv
        exact ((hp b x hu).2.2 v c hv).symm
    · rw [update_of_ne hut] at hu
      by_cases hvt : v = t
      · subst hvt
        rw [update_self] at hv
        exact (hp c x hv).2.2 u b hu
      · rw [update_of_ne hvt] at hv
        exact h.pending_inj u v b c x hu hv
  cursor := fun u x hu => by
    by_cases hut : u = t
    · subst hut
      rw [State.goto_thread, update_self] at hu
      exact hc x hu
    · rw [State.goto_thread, update_of_ne hut] at hu
      exact h.cursor u x hu
  stored := fun u b x q hu => by
    by_cases hut : u = t
    · subst hut
      rw [State.goto_thread, update_self] at hu
      exact hs b x q hu
    · rw [State.goto_thread, update_of_ne hut] at hu
      exact h.stored u b x q hu

theorem walk (h : Inv s) {p : Pc Key Value} (hp : p.pending = none)
    (hc : ∀ x, p.cursor = some x → Published s.map x) : Inv (s.goto t p) := by
  refine h.goto (fun b x hx => ?_) hc fun b x q hq => ?_
  · rw [hp] at hx
    cases hx
  · rw [hq] at hp
    cases hp

theorem retry (h : Inv s) {t : Thread} {p : Pc Key Value}
    (hp : p.pending = (s.thread t).pending) (hc : p.cursor = none)
    (hs : ∀ b x q, p = .insertExchange b x q → s.map.next x = q) : Inv (s.goto t p) := by
  refine h.goto (fun b x hx => ?_) (fun x hx => absurd (hc.symm.trans hx) nofun) hs
  rw [hp] at hx
  obtain ⟨hpub, hn⟩ := h.pending t b x hx
  exact ⟨hpub, hn, fun u c hu => h.pending_inj u t c b x hu hx⟩

end

section

omit [DecidableEq Key] [DecidableEq Thread]

theorem unallocated (h : Inv s) : s.map.nodes s.map.allocated = none := by
  cases hn : s.map.nodes s.map.allocated with
  | none => rfl
  | some n => exact absurd (h.bounded _ n hn) (Nat.lt_irrefl _)

theorem unpublished (h : Inv s) : ¬ Published s.map s.map.allocated := by
  rintro ⟨b, hb⟩
  obtain ⟨n, hn, -⟩ := h.home b _ hb
  rw [h.unallocated] at hn
  cases hn

theorem not_pending (h : Inv s) (t : Thread) (b : ℕ) :
    (s.thread t).pending ≠ some (b, s.map.allocated) := by
  intro ht
  obtain ⟨-, n, hn, -⟩ := h.pending t b _ ht
  rw [h.unallocated] at hn
  cases hn

end

section

omit [DecidableEq Key]

theorem newNode (h : Inv s) (t : Thread) (key : Key) (value : Value) :
    Inv { s.goto t (.insertLoad (s.map.hash key) s.map.allocated) with
      map := s.map.newNode key value } := by
  have hmap : Inv { s with map := s.map.newNode key value } :=
    h.of_nodes h.unpublished rfl rfl (fun y hy => by simp [hy]) (by simp; rfl) (by simp) (by simp)
      (fun u b hu => absurd hu (h.not_pending u b))
      fun u b q hu => h.not_pending u b (by rw [hu]; rfl)
  refine hmap.goto (fun b x hx => ?_) nofun (by simp)
  obtain ⟨rfl, rfl⟩ := hx
  refine ⟨fun hp => h.unpublished ?_, ⟨_, by simp; rfl, rfl⟩,
    fun u c hu => absurd hu (h.not_pending u c)⟩
  have hreach : ∀ b y, Reach (s.map.newNode key value).next ((s.map.newNode key value).buckets b) y
      ↔ Reach s.map.next (s.map.buckets b) y := fun b y =>
    @reach_of_unpublished _ _ s.map (s.map.newNode key value) _ h.unpublished rfl
      (fun y hy => by simp [hy]) b y
  obtain ⟨b, hb⟩ := hp
  exact ⟨b, (hreach b _).mp hb⟩

theorem storeNext (h : Inv s) {index new : ℕ} {oldHead : Option ℕ}
    (ht : s.thread t = .insertStore index new oldHead) (hn : s.map.nodes new = some n) :
    Inv { s.goto t (.insertExchange index new oldHead) with
      map := s.map.storeNode new { n with next := oldHead } } := by
  have hpend : (s.thread t).pending = some (index, new) := by rw [ht]; rfl
  obtain ⟨hpub, n', hn', hhash⟩ := h.pending t index new hpend
  rw [hn] at hn'
  cases hn'
  have hmap : Inv { s with map := s.map.storeNode new { n with next := oldHead } } := by
    refine h.of_nodes hpub rfl rfl (fun y hy => by simp [hy]) (by simp; rfl) (by simp)
      (h.bounded new n hn) (fun u b hu => ?_) fun u b q hu => ?_
    · have hut := h.pending_inj u t b index new hu hpend
      rw [hut, hpend] at hu
      cases hu
      exact hhash
    · have hut := h.pending_inj u t b index new (by rw [hu]; rfl) hpend
      rw [hut, ht] at hu
      cases hu
  refine hmap.retry hpend.symm rfl fun b x q hq => ?_
  cases hq
  simp [Map.next]

end

omit [DecidableEq Key] [DecidableEq Thread] in
/-- A store that leaves keys and links in place. -/
theorem mark (h : Inv s) (hn : s.map.nodes x = some n) :
    Inv { s with map := s.map.storeNode x { n with dead := true } } := by
  have hnext := next_mark hn
  have hkey : ∀ {y b}, (∃ n, s.map.nodes y = some n ∧ s.map.hash n.key = b) →
      ∃ n', (s.map.storeNode x { n with dead := true }).nodes y = some n' ∧
        s.map.hash n'.key = b := by
    rintro y b ⟨n', hn', hb⟩
    by_cases hy : y = x
    · subst hy
      rw [hn] at hn'
      cases hn'
      exact ⟨_, update_self _ _ _, hb⟩
    · exact ⟨n', (update_of_ne hy _ _).trans hn', hb⟩
  refine ⟨fun b y hy => ?_, fun y n' hy => ?_, fun t b y hy => ?_, h.pending_inj,
    fun t y hy => ?_, ?_⟩
  · rw [hnext] at hy
    exact hkey (h.home b y hy)
  · by_cases hyx : y = x
    · exact hyx ▸ h.bounded x n hn
    · exact h.bounded y n' ((update_of_ne hyx _ _).symm.trans hy)
  · obtain ⟨hpub, hb⟩ := h.pending t b y hy
    dsimp only [Published]
    rw [hnext]
    exact ⟨hpub, hkey hb⟩
  · dsimp only [Published]
    rw [hnext]
    exact h.cursor t y hy
  · rw [hnext]
    exact h.stored

omit [DecidableEq Key] in
theorem publish (h : Inv s) {index new : ℕ}
    (ht : s.thread t = .insertExchange index new (s.map.buckets index)) :
    Inv { s.goto t (.idle .done) with map := s.map.storeBucket index (some new) } := by
  have hpend : (s.thread t).pending = some (index, new) := by rw [ht]; rfl
  have hreach := fun {b y} => reach_publish (b := b) (y := y) (h.stored t index new _ ht)
  obtain ⟨-, hnew⟩ := h.pending t index new hpend
  have hother : ∀ {u b x}, ((s.goto t (.idle .done)).thread u).pending = some (b, x) →
      u ≠ t ∧ (s.thread u).pending = some (b, x) := by
    intro u b x hu
    by_cases hut : u = t
    · subst hut
      rw [State.goto_thread, update_self] at hu
      cases hu
    · rw [State.goto_thread, update_of_ne hut] at hu
      exact ⟨hut, hu⟩
  refine ⟨fun b y hy => ?_, h.bounded, fun u b y hy => ?_,
    fun u v b c x hu hv => h.pending_inj u v b c x (hother hu).2 (hother hv).2,
    fun u y hy => ?_, (h.walk (p := .idle .done) rfl nofun).stored⟩
  · rcases hreach.mp hy with ⟨rfl, rfl⟩ | hy
    · exact hnew
    · exact h.home b y hy
  · obtain ⟨hut, hu⟩ := hother hy
    obtain ⟨hpub, hb⟩ := h.pending u b y hu
    refine ⟨fun ⟨c, hc⟩ => ?_, hb⟩
    rcases hreach.mp hc with ⟨-, rfl⟩ | hc
    · exact hut (h.pending_inj u t b index y hu hpend)
    · exact hpub ⟨c, hc⟩
  · obtain ⟨b, hb⟩ := (h.walk (p := .idle .done) rfl nofun).cursor u y hy
    exact ⟨b, hreach.mpr (.inr hb)⟩

end Inv

section

omit [DecidableEq Thread] [IntegralKey Key]

theorem visit_pending {op : Walk} {key : Key} {p : Option ℕ} {q : Pc Key Value}
    (h : visit m op key p = some q) : q.pending = none := by
  cases p with
  | none =>
    cases h
    rfl
  | some x =>
    obtain ⟨n, -, rfl⟩ := map_eq_some_iff.mp h
    split <;> rfl

theorem visit_cursor {op : Walk} {key : Key} {p : Option ℕ} {q : Pc Key Value}
    (h : visit m op key p = some q) (hp : ∀ x, p = some x → Published m x) (x : ℕ)
    (hx : q.cursor = some x) : Published m x := by
  cases p with
  | none =>
    cases h
    cases hx
  | some y =>
    obtain ⟨n, -, rfl⟩ := map_eq_some_iff.mp h
    refine hp x ?_
    split at hx <;> exact hx

end

section

omit [IntegralKey Key] [DecidableEq Key]

theorem published_head {b : ℕ} (h : m.buckets b = some x) : Published m x :=
  ⟨b, h ▸ .here x⟩

theorem Published.next {y : ℕ} (h : Published m x) (hy : m.next x = some y) : Published m y := by
  obtain ⟨b, hb⟩ := h
  exact ⟨b, hb.trans (hy ▸ .here y)⟩

end

theorem access_sound {s s' : State Thread Key Value} {t : Thread} {spurious : Bool} (h : Inv s)
    (hs : access s t spurious = some s') : Inv s' ∧ Frame s.map s'.map := by
  unfold access at hs
  cases ht : s.thread t with
  | idle r => simp [ht] at hs
  | insertLoad index new =>
    simp only [ht, Option.some.injEq] at hs
    subst hs
    exact ⟨h.retry (by rw [ht]; rfl) rfl (by simp), frame_refl _⟩
  | insertStore index new oldHead =>
    simp only [ht, map_eq_some_iff] at hs
    obtain ⟨n, hn, rfl⟩ := hs
    have hpub := (h.pending t index new (by rw [ht]; rfl)).1
    exact ⟨h.storeNext ht hn, frame_of_unpublished hpub rfl rfl fun y hy => by simp [hy]⟩
  | insertExchange index new oldHead =>
    simp only [ht] at hs
    split at hs
    case isTrue hcas =>
      cases hs
      rw [← hcas.2] at ht
      have hreach := fun {b y} => reach_publish (b := b) (y := y) (h.stored t index new _ ht)
      exact ⟨h.publish ht, rfl, fun b x hx => hreach.mpr (.inr hx), fun _ _ => rfl,
        fun _ _ _ hu => hu⟩
    case isFalse =>
      cases hs
      exact ⟨h.retry (by rw [ht]; rfl) rfl (by simp), frame_refl _⟩
  | loadHead op key =>
    simp only [ht, map_eq_some_iff] at hs
    obtain ⟨q, hq, rfl⟩ := hs
    exact ⟨h.walk (visit_pending hq) (visit_cursor hq fun x hx => published_head hx), frame_refl _⟩
  | loadDead op key x =>
    have hx := h.cursor t x (by rw [ht]; rfl)
    simp only [ht, map_eq_some_iff] at hs
    obtain ⟨n, hn, rfl⟩ := hs
    split
    · exact ⟨h.walk rfl fun y hy => Option.some.inj hy ▸ hx, frame_refl _⟩
    · cases op with
      | find => exact ⟨h.walk rfl nofun, frame_refl _⟩
      | remove => exact ⟨h.walk rfl fun y hy => Option.some.inj hy ▸ hx, frame_refl _⟩
  | exchangeDead key x =>
    simp only [ht, map_eq_some_iff] at hs
    obtain ⟨n, hn, rfl⟩ := hs
    split
    · exact ⟨h.walk rfl nofun, frame_refl _⟩
    · exact ⟨(h.mark hn).walk rfl nofun, frame_mark hn⟩
  | loadNext op key x =>
    have hx := h.cursor t x (by rw [ht]; rfl)
    simp only [ht, bind_eq_some_iff, map_eq_some_iff] at hs
    obtain ⟨n, hn, q, hq, rfl⟩ := hs
    refine ⟨h.walk (visit_pending hq) (visit_cursor hq fun y hy => hx.next ?_), frame_refl _⟩
    rw [Map.next, hn]
    exact hy

theorem step_sound {s s' : State Thread Key Value} {a : Act Thread Key Value} (h : Inv s)
    (hs : step s a = some s') : Inv s' ∧ Frame s.map s'.map := by
  cases a with
  | insert t key value =>
    simp only [step] at hs
    split at hs
    · cases hs
      exact ⟨h.newNode t key value, frame_of_unpublished h.unpublished rfl rfl
        fun y hy => by simp [hy]⟩
    · cases hs
  | walk op t key =>
    simp only [step] at hs
    split at hs
    · cases hs
      exact ⟨h.walk rfl nofun, frame_refl _⟩
    · cases hs
  | access t spurious => exact access_sound h hs

omit [DecidableEq Key] [DecidableEq Thread] in
theorem Inv.node {s : State Thread Key Value} (h : Inv s) (hx : Published s.map x) :
    ∃ n, s.map.nodes x = some n := by
  obtain ⟨b, hb⟩ := hx
  obtain ⟨n, hn, -⟩ := h.home b x hb
  exact ⟨n, hn⟩

omit [DecidableEq Thread] in
theorem visit_some {s : State Thread Key Value} (h : Inv s) (op : Walk) (key : Key) {p : Option ℕ}
    (hp : ∀ x, p = some x → Published s.map x) : ∃ q, visit s.map op key p = some q := by
  cases p with
  | none => exact ⟨_, rfl⟩
  | some x =>
    obtain ⟨n, hn⟩ := h.node (hp x rfl)
    exact ⟨_, by rw [visit, hn]; rfl⟩

/-- A call in progress is never stopped by a node that is not there. -/
theorem access_some {s : State Thread Key Value} {t : Thread} (h : Inv s)
    (hbusy : ∀ r, s.thread t ≠ .idle r) (spurious : Bool) :
    ∃ s', access s t spurious = some s' := by
  unfold access
  cases ht : s.thread t with
  | idle r => exact absurd ht (hbusy r)
  | insertLoad index new => exact ⟨_, rfl⟩
  | insertStore index new oldHead =>
    obtain ⟨-, n, hn, -⟩ := h.pending t index new (by rw [ht]; rfl)
    exact ⟨_, by dsimp only; rw [hn]; rfl⟩
  | insertExchange index new oldHead =>
    dsimp only
    split <;> exact ⟨_, rfl⟩
  | loadHead op key =>
    obtain ⟨q, hq⟩ := visit_some h op key fun x hx => published_head hx
    exact ⟨_, by dsimp only; rw [hq]; rfl⟩
  | loadDead op key x =>
    obtain ⟨n, hn⟩ := h.node (h.cursor t x (by rw [ht]; rfl))
    exact ⟨_, by dsimp only; rw [hn]; rfl⟩
  | exchangeDead key x =>
    obtain ⟨n, hn⟩ := h.node (h.cursor t x (by rw [ht]; rfl))
    exact ⟨_, by dsimp only; rw [hn]; rfl⟩
  | loadNext op key x =>
    have hx := h.cursor t x (by rw [ht]; rfl)
    obtain ⟨n, hn⟩ := h.node hx
    have hnext : s.map.next x = n.next := by rw [Map.next, hn]; rfl
    obtain ⟨q, hq⟩ := visit_some h op key fun y hy => hx.next (hnext.trans hy)
    exact ⟨_, by dsimp only; rw [hn, bind_some, hq]; rfl⟩

theorem inv_init (count : ℕ) : Inv (machine Thread Key Value count).init where
  home := fun _ _ h => absurd h not_reach_none
  bounded := nofun
  pending := nofun
  pending_inj := nofun
  cursor := nofun
  stored := nofun

end Equilibrium.LockFreeHashMap
