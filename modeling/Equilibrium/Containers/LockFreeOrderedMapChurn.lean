import Equilibrium.Containers.LockFreeOrderedMapRefinement

/-! Which marked nodes a history leaves behind. A removal takes its node out of the bucket
without the flag that the collector waits for, so the node stays allocated. -/

namespace Equilibrium.LockFreeOrderedHashMap

open Library Library.LinkedChain Except Function List Option

variable {Key Value : Type}

/-- What a call adds to the lists of the map. -/
inductive Event (Key : Type) where
  | inserted (key : Key)
  | removed (key : Key)
  /-- A node was published and given up. -/
  | abandoned

namespace Event

def insertedKey : Event Key → Option Key
  | .inserted key => some key
  | _ => none

def IsInserted (e : Event Key) : Prop := ∃ key, e = .inserted key

end Event

/-- Nothing was removed but, last of all, the key that was inserted last. -/
def Tidy (es : List (Event Key)) : Prop :=
  (∀ e ∈ es, e.IsInserted) ∨
    ∃ pre key, es = pre ++ [.inserted key] ++ [.removed key] ∧ ∀ e ∈ pre, e.IsInserted

section Tidy

variable {es : List (Event Key)} {key : Key}

theorem forall_inserted_concat {e : Event Key} :
    (∀ e' ∈ es ++ [e], e'.IsInserted) ↔ (∀ e' ∈ es, e'.IsInserted) ∧ e.IsInserted := by
  simp [or_imp, forall_and]

theorem tidy_inserted : Tidy (es ++ [.inserted key]) ↔ ∀ e ∈ es, e.IsInserted := by
  rw [Tidy, forall_inserted_concat, and_iff_left ⟨key, rfl⟩]
  refine or_iff_left ?_
  rintro ⟨pre, key', heq, -⟩
  cases append_inj_right' heq rfl

theorem tidy_removed : Tidy (es ++ [.removed key]) ↔
    (∀ e ∈ es, e.IsInserted) ∧ es.getLast? = some (.inserted key) := by
  rw [Tidy, forall_inserted_concat]
  constructor
  · rintro (⟨-, key', h⟩ | ⟨pre, key', heq, hpre⟩)
    · cases h
    · obtain ⟨rfl, hkey⟩ := append_inj' heq rfl
      cases hkey
      exact ⟨forall_inserted_concat.mpr ⟨hpre, key, rfl⟩, getLast?_concat⟩
  · rintro ⟨hall, hlast⟩
    obtain ⟨pre, rfl⟩ := getLast?_eq_some_iff.mp hlast
    exact .inr ⟨pre, key, rfl, (forall_inserted_concat.mp hall).1⟩

theorem not_tidy_abandoned : ¬ Tidy (es ++ [.abandoned]) := by
  rintro (hall | ⟨pre, key', heq, -⟩)
  · obtain ⟨key', h⟩ := (forall_inserted_concat.mp hall).2
    cases h
  · cases append_inj_right' heq rfl

end Tidy

def Map.Dead (m : Map Key Value) (x : ℕ) : Prop :=
  ∃ n, m.nodes x = some n ∧ n.freed = false ∧ n.isDeleted = true

def Map.tailKey (m : Map Key Value) : Option Key :=
  m.orderTail.bind fun t => (m.nodes t).map (·.key)

/-- The events `es` led to the marked nodes of the map. -/
structure Churned (m : Map Key Value) (es : List (Event Key)) : Prop where
  dead : (∃ x, m.Dead x) ↔ ¬ ∀ e ∈ es, e.IsInserted
  tidy : (∀ x, m.Dead x → m.orderTail = some x) ↔ Tidy es
  tailKey : (∀ e ∈ es, e.IsInserted) → m.tailKey = es.getLast?.bind Event.insertedKey

namespace Churned

variable {m m' : Map Key Value} {es : List (Event Key)}

theorem congr (h : Churned m es) (hdead : ∀ x, m'.Dead x ↔ m.Dead x)
    (htail : m'.orderTail = m.orderTail) (hkey : m'.tailKey = m.tailKey) : Churned m' es where
  dead := by simp only [hdead, h.dead]
  tidy := by simp only [hdead, htail, h.tidy]
  tailKey := fun hall => hkey.trans (h.tailKey hall)

theorem inserted (h : Churned m es) {x : ℕ} {key : Key} (hdead : ∀ y, m'.Dead y ↔ m.Dead y)
    (hx : ¬ m.Dead x) (htail : m'.orderTail = some x) (hkey : m'.tailKey = some key) :
    Churned m' (es ++ [.inserted key]) where
  dead := by
    rw [forall_inserted_concat, and_iff_left ⟨key, rfl⟩, ← h.dead]
    simp only [hdead]
  tidy := by
    rw [tidy_inserted, ← not_iff_not, ← h.dead, htail]
    simp only [hdead, not_forall]
    constructor
    · rintro ⟨y, hy, -⟩
      exact ⟨y, hy⟩
    · rintro ⟨y, hy⟩
      exact ⟨y, hy, fun heq => hx (Option.some.inj heq ▸ hy)⟩
  tailKey := fun _ => by
    rw [hkey, getLast?_concat]
    rfl

theorem removed (h : Churned m es) {x : ℕ} {key : Key}
    (hdead : ∀ y, m'.Dead y ↔ m.Dead y ∨ y = x) (hx : ¬ m.Dead x)
    (htail : m'.orderTail = m.orderTail)
    (hkey : (¬ ∃ y, m.Dead y) → (m.orderTail = some x ↔ m.tailKey = some key)) :
    Churned m' (es ++ [.removed key]) where
  dead := by
    rw [forall_inserted_concat]
    refine iff_of_true ⟨x, (hdead x).mpr (.inr rfl)⟩ ?_
    rintro ⟨-, key', hkey'⟩
    cases hkey'
  tidy := by
    have hall : (∀ y, m'.Dead y → m'.orderTail = some y) ↔
        (∀ e ∈ es, e.IsInserted) ∧ m.orderTail = some x := by
      rw [htail, ← not_not (a := ∀ e ∈ es, e.IsInserted), ← h.dead]
      constructor
      · intro hy
        have htailx := hy x ((hdead x).mpr (.inr rfl))
        refine ⟨?_, htailx⟩
        rintro ⟨y, hdy⟩
        have := htailx.symm.trans (hy y ((hdead y).mpr (.inl hdy)))
        exact hx (Option.some.inj this ▸ hdy)
      · rintro ⟨hnone, htailx⟩ y hy
        rcases (hdead y).mp hy with hy | rfl
        · exact absurd ⟨y, hy⟩ hnone
        · exact htailx
    rw [hall, tidy_removed]
    refine and_congr_right fun hins => ?_
    rw [hkey (h.dead.not.mpr (not_not.mpr hins)), h.tailKey hins]
    cases hlast : es.getLast? with
    | none => simp
    | some e =>
      obtain ⟨key', rfl⟩ := hins e (mem_of_getLast? hlast)
      simp [Event.insertedKey]
  tailKey := fun hall => by
    obtain ⟨key', hkey'⟩ := (forall_inserted_concat.mp hall).2
    cases hkey'

theorem abandoned {x : ℕ} (hdead : ∀ y, m'.Dead y ↔ m.Dead y ∨ y = x)
    (htail : m'.orderTail ≠ some x) : Churned m' (es ++ [.abandoned]) where
  dead := by
    rw [forall_inserted_concat]
    refine iff_of_true ⟨x, (hdead x).mpr (.inr rfl)⟩ ?_
    rintro ⟨-, key', hkey'⟩
    cases hkey'
  tidy := iff_of_false (fun hall => htail (hall x ((hdead x).mpr (.inr rfl)))) not_tidy_abandoned
  tailKey := fun hall => by
    obtain ⟨key', hkey'⟩ := (forall_inserted_concat.mp hall).2
    cases hkey'

end Churned

section Dead

variable {m m' : Map Key Value}

theorem dead_of_frame (hframe : ∀ x, m'.frame x = m.frame x) (x : ℕ) : m'.Dead x ↔ m.Dead x := by
  have hone : ∀ {m m' : Map Key Value}, (∀ x, m'.frame x = m.frame x) → m'.Dead x → m.Dead x := by
    rintro m m' hframe ⟨n', hn', hfreed, hdeleted⟩
    obtain ⟨n, hn, heq⟩ := node_of_frame hframe hn'
    obtain ⟨-, -, hd, -, -, hf⟩ := frame_fields heq
    exact ⟨n, hn, hf.trans hfreed, hd.trans hdeleted⟩
  exact ⟨hone hframe, hone fun y => (hframe y).symm⟩

theorem tailKey_of_frame (hframe : ∀ x, m'.frame x = m.frame x)
    (htail : m'.orderTail = m.orderTail) : m'.tailKey = m.tailKey := by
  rw [Map.tailKey, Map.tailKey, htail]
  congr 1
  funext t
  have heq : ∀ m : Map Key Value, (m.nodes t).map (·.key) = (m.frame t).map Prod.fst := by
    intro m
    rw [Map.frame, Option.map_map]
    rfl
  rw [heq, heq, hframe]

theorem Churned.collected {es : List (Event Key)} (h : Churned m es) (hc : Collected m m') :
    Churned m' es :=
  have hframe := frame_of_core hc.core
  h.congr (dead_of_frame hframe) hc.tail (tailKey_of_frame hframe hc.tail)

variable [Hashable Key] {chain : ℕ → List ℕ} {order : List ℕ}

theorem Bucketed.not_dead_new (h : Bucketed m chain) : ¬ m.Dead m.allocated := by
  rintro ⟨n, hn, -⟩
  rw [h.unallocated] at hn
  cases hn

section

variable (h : Settled m chain order)
include h

theorem Settled.tail_held {t : ℕ} (ht : m.orderTail = some t) : m.Held t :=
  h.listed t (mem_of_getLast? (h.tail.symm.trans ht))

theorem Settled.churned_inserted {es : List (Event Key)} (hc : Churned m es) (key : Key)
    (value : Value) :
    Churned ((m.published key value).appended m.allocated) (es ++ [.inserted key]) := by
  have hframe := frame_of_core (core_appended (m.published key value) m.allocated)
  have htail := (appended_fields (m.published key value) m.allocated).2.2.2.2.2
  refine hc.inserted (fun y => (dead_of_frame hframe y).trans ?_) h.not_dead_new htail ?_
  · by_cases hy : y = m.allocated
    · subst hy
      refine iff_of_false ?_ h.not_dead_new
      rintro ⟨n, hn, -, hdeleted⟩
      rw [nodes_published_new] at hn
      cases hn
      cases hdeleted
    · rw [Map.Dead, Map.Dead, nodes_published hy]
  · rw [Map.tailKey, htail, bind_some]
    obtain ⟨n, hn, heq⟩ := node_of_frame (fun y => (hframe y).symm)
      nodes_published_new
    rw [hn]
    exact congrArg some (frame_fields heq).1

theorem Settled.churned_garbage {es : List (Event Key)} {n : Node Key Value} (hc : Churned m es)
    (hnodes : m'.nodes = update m.nodes m.allocated (some n)) (htail : m'.orderTail = m.orderTail) :
    (n.freed = true → Churned m' es) ∧
      (n.freed = false → n.isDeleted = true → Churned m' (es ++ [.abandoned])) := by
  have hold : ∀ {y}, y ≠ m.allocated → (m'.Dead y ↔ m.Dead y) := fun hy => by
    rw [Map.Dead, Map.Dead, hnodes, update_of_ne hy]
  have hnew : m'.nodes m.allocated = some n := by rw [hnodes, update_self]
  refine ⟨fun hfreed => hc.congr (fun y => ?_) htail ?_, fun hfreed hdeleted =>
    @Churned.abandoned _ _ m m' es m.allocated (fun y => ?_) fun heq => ?_⟩
  · by_cases hy : y = m.allocated
    · subst hy
      refine iff_of_false ?_ h.not_dead_new
      rintro ⟨n', hn', hfreed', -⟩
      rw [hnew] at hn'
      cases hn'
      cases hfreed.symm.trans hfreed'
    · exact hold hy
  · rw [Map.tailKey, Map.tailKey, htail]
    cases ht : m.orderTail with
    | none => rfl
    | some t =>
      have hne := h.ne_new (h.tail_held ht)
      rw [bind_some, bind_some, hnodes, update_of_ne hne]
  · by_cases hy : y = m.allocated
    · subst hy
      exact iff_of_true ⟨n, hnew, hfreed, hdeleted⟩ (.inr rfl)
    · rw [hold hy, or_iff_left hy]
  · exact h.ne_new (h.tail_held (htail.symm.trans heq)) rfl

theorem Settled.churned_unlinked {es : List (Event Key)} (hc : Churned m es) {x : ℕ}
    {n : Node Key Value} (hlive : m.Live x n) (l : Link) :
    Churned (m.unlinked x l) (es ++ [.removed n.key]) := by
  refine hc.removed (x := x) (fun y => ?_) ?_ (m.unlinked_fields x l).2.2.2.1 ?_
  · rw [Map.Dead, Map.nodes_unlinked]
    by_cases hy : y = x
    · subst hy
      rw [hlive.1]
      exact iff_of_true ⟨_, rfl, hlive.2.2, by simp⟩ (.inr rfl)
    · rw [or_iff_left hy, Map.Dead]
      constructor
      · rintro ⟨n', hn', hfreed, hdeleted⟩
        obtain ⟨n, hn, rfl⟩ := map_eq_some_iff.mp hn'
        exact ⟨n, hn, hfreed, by simpa [hy] using hdeleted⟩
      · rintro ⟨n, hn, hfreed, hdeleted⟩
        rw [hn]
        exact ⟨_, rfl, hfreed, by simp [hdeleted]⟩
  · rintro ⟨n', hn', -, hdeleted⟩
    rw [hlive.1] at hn'
    cases hn'
    cases hlive.2.1.symm.trans hdeleted
  · intro hnone
    rw [Map.tailKey]
    cases ht : m.orderTail with
    | none => exact iff_of_false nofun nofun
    | some t =>
      obtain ⟨nt, hnt, hfreed⟩ := h.tail_held ht
      rw [bind_some, hnt, map_some, Option.some.injEq, Option.some.injEq]
      constructor
      · rintro rfl
        rw [hlive.1] at hnt
        cases hnt
        rfl
      · intro hkey
        have hdeleted : nt.isDeleted = false := by
          by_contra hd
          exact hnone ⟨t, nt, hnt, hfreed, by simpa using hd⟩
        exact h.keys t x nt n ⟨hnt, hdeleted, hfreed⟩ hlive hkey

end

end Dead

section Histories

variable [DecidableEq Key]

/-- The event of an insertion whose argument holds `moved` once the node is made. -/
def insertEvent (hashKey : Key → ℕ) (a : FiniteMap Key Value) (moved : Key)
    (failures : Map.Failures) (key : Key) : Option (Event Key) :=
  if a.lookup key ≠ none then none
  else if a.lookup moved ≠ none ∧ failures.bucket ≠ 0 then none
  else if a.lookup moved ≠ none ∧ hashKey moved = hashKey key then some .abandoned
  else some (.inserted key)

def event (hashKey : Key → ℕ) (a : FiniteMap Key Value) : MoveCall Key Value → Option (Event Key)
  | .call (.insert failures key _) => insertEvent hashKey a key failures key
  | .insertMoved failures moved key _ => insertEvent hashKey a moved failures key
  | .call (.remove _ key) => if a.lookup key ≠ none then some (.removed key) else none
  | .call _ => none

def specMove (hashKey : Key → ℕ) (a : FiniteMap Key Value) :
    MoveCall Key Value → FiniteMap Key Value
  | .call call => (spec a call).1
  | .insertMoved failures moved key value =>
    if Refused hashKey a moved failures key then a else a.insertNew key value

/-- The events of a history, which the finite map and the buckets decide. -/
def events (hashKey : Key → ℕ) : FiniteMap Key Value → List (MoveCall Key Value) → List (Event Key)
  | _, [] => []
  | a, call :: rest => (event hashKey a call).toList ++ events hashKey (specMove hashKey a call) rest

variable [Hashable Key]

structure Tracks (hashKey : Key → ℕ) (s : Single Key Value) (a : FiniteMap Key Value)
    (es : List (Event Key)) : Prop where
  represents : Represents s a
  hash : s.map.hashKey = hashKey
  churned : Churned s.map es

namespace Tracks

variable {hashKey : Key → ℕ} {s : Single Key Value} {a : FiniteMap Key Value}
  {es : List (Event Key)}

section

variable (h : Tracks hashKey s a es)
include h

theorem insertInternal (forward : Key → Key) (failures : Map.Failures) (key : Key) (value : Value) :
    ∃ m b, s.map.insertInternal forward failures key value = .ok (m, b) ∧
      Tracks hashKey { s with map := m }
        (if Refused hashKey a (forward key) failures key then a else a.insertNew key value)
        (es ++ (insertEvent hashKey a (forward key) failures key).toList) := by
  obtain ⟨m, hok, hrep⟩ := h.represents.insertInternal forward failures key value
  rw [h.hash] at hok hrep
  obtain ⟨chain, order, hsettled, ha⟩ := h.represents
  have hkeys : ∀ k, k ∈ s.map.keys order ↔ a.lookup k ≠ none := fun k => mem_keys_iff_lookup ha
  have heq := hok.symm.trans (insertInternal_eq hsettled forward failures key value)
  simp only [hkeys, h.hash] at heq
  have hm : m.hashKey = hashKey ∧
      Churned m (es ++ (insertEvent hashKey a (forward key) failures key).toList) := by
    have hinserted : ∀ {b}, (.ok (m, b) : Outcome (Map Key Value × Bool)) =
        .ok ((s.map.published key value).appended s.map.allocated, true) →
        m.hashKey = hashKey ∧ Churned m (es ++ [.inserted key]) := by
      intro b heq
      simp only [ok.injEq, Prod.mk.injEq] at heq
      rw [heq.1]
      exact ⟨(hashKey_congr (appended_fields _ _).2.1).trans h.hash,
        hsettled.churned_inserted h.churned key value⟩
    rw [insertEvent]
    by_cases hkey : a.lookup key ≠ none
    · rw [if_pos hkey] at heq ⊢
      simp only [ok.injEq, Prod.mk.injEq] at heq
      rw [heq.1, toList_none, append_nil]
      exact ⟨h.hash, h.churned⟩
    rw [if_neg hkey] at heq ⊢
    by_cases hmoved : a.lookup (forward key) ≠ none
    · by_cases hbucket : failures.bucket = 0
      · rw [if_neg fun hand => hand.2 hbucket]
        by_cases hhash : hashKey (forward key) = hashKey key
        · rw [if_pos ⟨hmoved, hhash⟩]
          rw [if_pos ⟨hmoved, .inr hhash⟩, if_pos hbucket] at heq
          simp only [ok.injEq, Prod.mk.injEq] at heq
          rw [heq.1]
          have hnodes : (s.map.abandoned key value).nodes = _ := prepared_modify_nodes key value _
          exact ⟨h.hash, (hsettled.churned_garbage h.churned hnodes rfl).2 rfl rfl⟩
        · rw [if_neg fun hand => hhash hand.2]
          rw [if_neg fun hand => hand.2.elim (fun hno => hno hbucket) hhash] at heq
          exact hinserted heq
      · rw [if_pos ⟨hmoved, hbucket⟩]
        rw [if_pos ⟨hmoved, .inl hbucket⟩, if_neg hbucket] at heq
        simp only [ok.injEq, Prod.mk.injEq] at heq
        rw [heq.1, toList_none, append_nil]
        have hnodes : (s.map.discarded key value).nodes = _ := prepared_modify_nodes key value _
        exact ⟨h.hash, (hsettled.churned_garbage h.churned hnodes rfl).1 rfl⟩
    · rw [if_neg fun hand => hmoved hand.1, if_neg fun hand => hmoved hand.1]
      rw [if_neg fun hand => hmoved hand.1] at heq
      exact hinserted heq
  exact ⟨m, _, hok, hrep, hm.1, hm.2⟩

theorem collected {s' : Single Key Value} (hrep : Represents s' a) (hc : Collected s.map s'.map) :
    Tracks hashKey s' a es :=
  ⟨hrep, (hashKey_congr hc.count).trans h.hash, h.churned.collected hc⟩

theorem collectGarbage : ∃ s', s.collectGarbage = .ok s' ∧ Tracks hashKey s' a es := by
  obtain ⟨chain, order, hsettled, ha⟩ := h.represents
  obtain ⟨s', hok, hsettled', hpairs, hc⟩ := collectGarbage_eq hsettled
  exact ⟨s', hok, h.collected ⟨chain, _, hsettled', ha.trans hpairs.symm⟩ hc⟩

theorem postMutate : ∃ s', s.postMutate = .ok s' ∧ Tracks hashKey s' a es := by
  obtain ⟨chain, order, hsettled, ha⟩ := h.represents
  obtain ⟨s', order', hok, hsettled', hpairs, hc⟩ := postMutate_eq hsettled
  exact ⟨s', hok, h.collected ⟨chain, order', hsettled', ha.trans hpairs.symm⟩ hc⟩

theorem remove (failures : ℕ) (key : Key) :
    ∃ s' b, s.remove key failures = .ok (s', b) ∧ Tracks hashKey s' (a.erase key)
      (es ++ (if a.lookup key ≠ none then some (.removed key) else none : Option (Event Key)).toList) := by
  obtain ⟨chain, order, hsettled, ha⟩ := h.represents
  have hkeys : key ∈ s.map.keys order ↔ a.lookup key ≠ none := mem_keys_iff_lookup ha
  rcases removeGuarded_eq hsettled key failures with
    ⟨hkey, hremove⟩ | ⟨x, n, l, rest, hremove, hlive, rfl, hchain⟩
  · have hlookup : ¬ a.lookup key ≠ none := hkeys.not.mp hkey
    have hsame : Tracks hashKey { s with map := s.map } (a.erase key) es :=
      ⟨⟨chain, order, hsettled, (erase_of_none (not_not.mp hlookup)).trans ha⟩, h.hash, h.churned⟩
    obtain ⟨s', hpost, hs'⟩ := hsame.postMutate
    refine ⟨s', false, ?_, ?_⟩
    · rw [Single.remove, hremove]
      simp only [bind, Except.bind, hpost]
    · rwa [if_neg hlookup, toList_none, append_nil]
  · have hlookup : a.lookup n.key ≠ none := hkeys.mp (hsettled.mem_keys.mpr ⟨x, n, hlive, rfl⟩)
    have hnext : Tracks hashKey { s with
        map := s.map.unlinked x (Map.linkAfter (.bucket (s.map.hashKey n.key)) l)
        deleteSinceGc := s.deleteSinceGc + 1 } (a.erase n.key) (es ++ [.removed n.key]) :=
      ⟨.unlinked hsettled ha hlive hchain, (hashKey_congr (s.map.unlinked_fields x _).1).trans h.hash,
        hsettled.churned_unlinked h.churned hlive _⟩
    obtain ⟨s', hpost, hs'⟩ := hnext.postMutate
    refine ⟨s', true, ?_, ?_⟩
    · rw [Single.remove, hremove]
      simp only [bind, Except.bind, hpost]
    · rwa [if_pos hlookup]

theorem withValue (key : Key) (callback : Value → Value) :
    ∃ m b, s.map.withValue key callback = .ok (m, b) ∧
      Tracks hashKey { s with map := m } (spec a (.withValue key callback)).1 es := by
  obtain ⟨m, hok, hrep, -⟩ := h.represents.withValue key callback
  suffices hm : m.hashKey = hashKey ∧ Churned m es from ⟨m, _, hok, hrep, hm.1, hm.2⟩
  obtain ⟨chain, order, hsettled, ha⟩ := h.represents
  rcases withValue_eq hsettled key callback with ⟨-, hstore⟩ | ⟨m', -, hstore, -, -, hframe, hcount, htail⟩
  · rw [hok] at hstore
    simp only [ok.injEq, Prod.mk.injEq] at hstore
    rw [hstore.1]
    exact ⟨h.hash, h.churned⟩
  · rw [hok] at hstore
    simp only [ok.injEq, Prod.mk.injEq] at hstore
    rw [hstore.1]
    exact ⟨(hashKey_congr hcount).trans h.hash,
      h.churned.congr (dead_of_frame hframe) htail (tailKey_of_frame hframe htail)⟩

theorem execMove (call : MoveCall Key Value) : ∃ s' r, execMove s call = .ok (s', r) ∧
      Tracks hashKey s' (specMove hashKey a call) (es ++ (event hashKey a call).toList) := by
  have hread : Tracks hashKey s a (es ++ (none : Option (Event Key)).toList) := by
    rwa [toList_none, append_nil]
  cases call with
  | insertMoved failures moved key value =>
    obtain ⟨m, b, hok, hm⟩ := h.insertInternal (fun _ => moved) failures key value
    exact ⟨_, _, by rw [LockFreeOrderedHashMap.execMove, hok]; rfl, hm⟩
  | call call =>
    cases call with
    | insert failures key value =>
      obtain ⟨m, b, hok, hm⟩ := h.insertInternal id failures key value
      rw [id, refused_self] at hm
      refine ⟨{ s with map := m }, .flag b, ?_, hm⟩
      rw [LockFreeOrderedHashMap.execMove, exec, hok]
      rfl
    | remove failures key =>
      obtain ⟨s', b, hok, hs'⟩ := h.remove failures key
      exact ⟨s', .flag b, by rw [LockFreeOrderedHashMap.execMove, exec, hok]; rfl, hs'⟩
    | find key =>
      exact ⟨s, _, by rw [LockFreeOrderedHashMap.execMove, exec, h.represents.find]; rfl, hread⟩
    | withValue key callback =>
      obtain ⟨m, b, hok, hm⟩ := h.withValue key callback
      have hm' : Tracks hashKey { s with map := m } (spec a (.withValue key callback)).1
          (es ++ (none : Option (Event Key)).toList) := by
        rwa [toList_none, append_nil]
      exact ⟨_, .flag b, by rw [LockFreeOrderedHashMap.execMove, exec, hok]; rfl, hm'⟩
    | iterate =>
      exact ⟨s, _, by rw [LockFreeOrderedHashMap.execMove, exec, h.represents.iterate]; rfl, hread⟩
    | orderedKeysSnapshot =>
      obtain ⟨chain, order, hsettled, ha⟩ := h.represents
      refine ⟨s, .keys (s.map.keys order), ?_, hread⟩
      rw [LockFreeOrderedHashMap.execMove, exec, orderedKeysSnapshot_eq hsettled]
      rfl
    | collectGarbage =>
      obtain ⟨s', hok, hs'⟩ := hread.collectGarbage
      exact ⟨s', .done, by rw [LockFreeOrderedHashMap.execMove, exec, hok]; rfl, hs'⟩
    | epochs current slots =>
      exact ⟨_, _, rfl, hread.represents.congr rfl, hread.hash, hread.churned⟩

theorem run (calls : List (MoveCall Key Value)) :
    ∃ s' rs a', Calls.run LockFreeOrderedHashMap.execMove s calls = .ok (s', rs) ∧
      Tracks hashKey s' a' (es ++ events hashKey a calls) := by
  induction calls generalizing s a es with
  | nil => exact ⟨s, [], a, rfl, by rwa [events, append_nil]⟩
  | cons call rest ih =>
    obtain ⟨s₁, r, hx, h₁⟩ := h.execMove call
    obtain ⟨s', rs, a', hr, h'⟩ := ih h₁
    refine ⟨s', r :: rs, a', by simp [Calls.run, hx, hr], ?_⟩
    rwa [events, ← append_assoc]

end

end Tracks

theorem tracks_single (count : ℕ) (current : ℤ) (slots : List ℤ) :
    Tracks (construct count : Map Key Value).hashKey (single count current slots : Single Key Value)
      FiniteMap.empty [] where
  represents := represents_single count current slots
  hash := rfl
  churned := by
    have hnone : ∀ x, ¬ (construct count : Map Key Value).Dead x := fun x ⟨n, hn, _⟩ => absurd hn nofun
    refine ⟨iff_of_false (fun ⟨x, hx⟩ => hnone x hx) (not_not.mpr nofun), ?_, fun _ => rfl⟩
    exact iff_of_true (fun x hx => absurd hx (hnone x)) (.inl nofun)

/-- Every node that is still allocated is unmarked, or it is the last of the order list. -/
def Reclaimed (m : Map Key Value) : Prop :=
  ∀ x ∈ m.allNodes ++ m.staging, (∃ n, m.Live x n) ∨ m.orderTail = some x

theorem Tracks.reclaimed_iff {hashKey : Key → ℕ} {s : Single Key Value} {a : FiniteMap Key Value}
    {es : List (Event Key)} (h : Tracks hashKey s a es) : Reclaimed s.map ↔ Tidy es := by
  obtain ⟨chain, order, hsettled, -⟩ := h.represents
  rw [← h.churned.tidy]
  constructor
  · rintro hall x ⟨n, hn, hfreed, hdeleted⟩
    refine (hall x ((hsettled.tracked x).mpr ⟨n, hn, hfreed⟩)).resolve_left ?_
    rintro ⟨n', hn', hlive, -⟩
    rw [hn] at hn'
    cases hn'
    cases hdeleted.symm.trans hlive
  · intro hall x hx
    obtain ⟨n, hn, hfreed⟩ := (hsettled.tracked x).mp hx
    cases hdeleted : n.isDeleted with
    | false => exact .inl ⟨n, hn, hdeleted, hfreed⟩
    | true => exact .inr (hall x ⟨n, hn, hfreed, hdeleted⟩)

section

omit [Hashable Key]

theorem events_append (hashKey : Key → ℕ) (a : FiniteMap Key Value)
    (calls rest : List (MoveCall Key Value)) : ∃ a',
    events hashKey a (calls ++ rest) = events hashKey a calls ++ events hashKey a' rest := by
  induction calls generalizing a with
  | nil => exact ⟨a, rfl⟩
  | cons call calls ih =>
    obtain ⟨a', heq⟩ := ih (specMove hashKey a call)
    exact ⟨a', by rw [cons_append, events, heq, events, append_assoc]⟩

theorem events_collections (hashKey : Key → ℕ) (a : FiniteMap Key Value) (current : ℤ)
    (slots : List ℤ) (n : ℕ) : events hashKey a
      (.call (.epochs current slots) :: replicate n (.call .collectGarbage)) = [] := by
  have hcollect : ∀ n, events hashKey a (replicate n (.call .collectGarbage)) = [] := by
    intro n
    induction n with
    | zero => rfl
    | succ n ih => exact ih
  exact hcollect n

end

/-- A history, and collections after it with no guard announced in any of the slots. -/
def collections (calls : List (MoveCall Key Value)) (current : ℤ) (slots n : ℕ) :
    List (MoveCall Key Value) :=
  calls ++ .call (.epochs current (List.replicate slots (-1))) ::
    List.replicate n (.call .collectGarbage)

theorem run_collections (count : ℕ) (current : ℤ) (slots : List ℤ)
    (calls : List (MoveCall Key Value)) (current' : ℤ) (slots' n : ℕ) :
    ∃ s rs, Calls.run execMove (single count current slots) (collections calls current' slots' n) =
        .ok (s, rs) ∧ (Reclaimed s.map ↔
        Tidy (events (construct count : Map Key Value).hashKey FiniteMap.empty calls)) := by
  obtain ⟨s, rs, a, hrun, hs⟩ := (tracks_single count current slots).run
    (collections calls current' slots' n)
  refine ⟨s, rs, hrun, hs.reclaimed_iff.trans ?_⟩
  obtain ⟨a', heq⟩ := events_append (construct count : Map Key Value).hashKey FiniteMap.empty calls
    (.call (.epochs current' (replicate slots' (-1))) ::
      replicate n (.call .collectGarbage))
  rw [nil_append, collections, heq, events_collections, append_nil]

/-- Collections free every removed node exactly when there is none to free. -/
theorem reclaimed_iff_tidy (count : ℕ) (current : ℤ) (slots : List ℤ)
    (calls : List (MoveCall Key Value)) (current' : ℤ) (slots' : ℕ) :
    (∃ N, ∀ n ≥ N, ∃ s rs, Calls.run execMove (single count current slots)
        (collections calls current' slots' n) = .ok (s, rs) ∧ Reclaimed s.map) ↔
      Tidy (events (construct count : Map Key Value).hashKey FiniteMap.empty calls) := by
  constructor
  · rintro ⟨N, hall⟩
    obtain ⟨s, rs, hrun, hs⟩ := hall N (Nat.le_refl N)
    obtain ⟨s', rs', hrun', hiff⟩ := run_collections count current slots calls current' slots' N
    rw [hrun] at hrun'
    cases hrun'
    exact hiff.mp hs
  · intro htidy
    refine ⟨0, fun n _ => ?_⟩
    obtain ⟨s, rs, hrun, hiff⟩ := run_collections count current slots calls current' slots' n
    exact ⟨s, rs, hrun, hiff.mpr htidy⟩

/-- Two keys go in and the first one out: no number of collections frees its node. -/
theorem removed_never_reclaimed : ¬ ∃ N, ∀ n ≥ N, ∃ s rs,
    Calls.run execMove (single 1 0 [] : Single ℕ ℕ) (collections
      [.call (.insert ⟨0, 0⟩ 1 10), .call (.insert ⟨0, 0⟩ 2 20), .call (.remove 0 1)] 0 1 n) =
      .ok (s, rs) ∧ Reclaimed s.map := by
  rintro ⟨N, hall⟩
  obtain ⟨s, rs, hrun, hs⟩ := hall N (Nat.le_refl N)
  obtain ⟨s', rs', hrun', hiff⟩ := run_collections 1 0 []
    [.call (.insert ⟨0, 0⟩ 1 10), .call (.insert ⟨0, 0⟩ 2 20), .call (.remove 0 1)] 0 1 N
  rw [hrun] at hrun'
  cases hrun'
  have hevents : events (construct 1 : Map ℕ ℕ).hashKey FiniteMap.empty
      [.call (.insert ⟨0, 0⟩ 1 10), .call (.insert ⟨0, 0⟩ 2 20), .call (.remove 0 1)] =
      [.inserted 1, .inserted 2] ++ [.removed 1] := rfl
  have htidy := hiff.mp hs
  rw [hevents, tidy_removed] at htidy
  exact absurd htidy.2 (by simp)

end Histories

end Equilibrium.LockFreeOrderedHashMap
