import Equilibrium.Containers.LockFreeOrderedMapRaces
import Equilibrium.Library.LinkedChain

/-! The chains of the buckets under concurrent splices. A link, and any successor that a
thread still holds, leads to every unmarked node of its bucket that was published before
the node it was read from. -/

namespace Equilibrium.LockFreeOrderedHashMap

open Library.LinkedChain List
open Function (update update_self update_of_ne)

variable {Key Value : Type}

namespace Map

def Undeleted (m : Map Key Value) (x : ℕ) : Prop := ∃ n, m.nodes x = some n ∧ n.isDeleted = false

def Marked (m : Map Key Value) (x : ℕ) : Prop := ∃ n, m.nodes x = some n ∧ n.isDeleted = true

def Keyed (m : Map Key Value) (key : Key) (x : ℕ) : Prop := ∃ n, m.nodes x = some n ∧ n.key = key

theorem marked_eq_true {m : Map Key Value} {x : ℕ} : m.marked x = true ↔ m.Marked x := by
  rw [marked, Option.any_eq_true_iff_get]
  constructor
  · rintro ⟨hx, hdeleted⟩
    exact ⟨_, (Option.some_get hx).symm, hdeleted⟩
  · rintro ⟨n, hn, hdeleted⟩
    simp [hn, hdeleted]

theorem Marked.not_undeleted {m : Map Key Value} {x : ℕ} (h : m.Marked x) : ¬ m.Undeleted x := by
  obtain ⟨n, hn, hdeleted⟩ := h
  rintro ⟨n', hn', hlive⟩
  rw [hn] at hn'
  cases hn'
  cases hdeleted.symm.trans hlive

theorem marked_or_undeleted {m : Map Key Value} {x : ℕ} {n : Node Key Value}
    (hn : m.nodes x = some n) : m.Marked x ∨ m.Undeleted x := by
  cases hdeleted : n.isDeleted with
  | true => exact .inl ⟨n, hn, hdeleted⟩
  | false => exact .inr ⟨n, hn, hdeleted⟩

theorem hasKey_eq_true [DecidableEq Key] {m : Map Key Value} {key : Key} {x : ℕ} :
    m.hasKey key x = true ↔ m.Keyed key x := by
  rw [hasKey, Keyed]
  cases m.nodes x <;> simp

theorem bucketNext_store {m : Map Key Value} {x : ℕ} {p : Option ℕ}
    (hx : ∃ n, m.nodes x = some n) : (m.modify x fun n => { n with bucketNext := p }).bucketNext =
      update m.bucketNext x p := by
  obtain ⟨n, hn⟩ := hx
  funext y
  rw [bucketNext, nodes_modify]
  by_cases hy : y = x
  · subst hy
    simp [hn]
  · rw [update_of_ne hy, bucketNext]
    cases m.nodes y <;> simp [hy]

theorem orderNext_store {m : Map Key Value} {x : ℕ} {p : Option ℕ}
    (hx : ∃ n, m.nodes x = some n) : (m.modify x fun n => { n with orderNext := p }).orderNext =
      update m.orderNext x p := by
  obtain ⟨n, hn⟩ := hx
  funext y
  rw [orderNext, nodes_modify]
  by_cases hy : y = x
  · subst hy
    simp [hn]
  · rw [update_of_ne hy, orderNext]
    cases m.nodes y <;> simp [hy]

theorem Keyed.unique {m : Map Key Value} {key key' : Key} {x : ℕ} (h : m.Keyed key x)
    (h' : m.Keyed key' x) : key = key' := by
  obtain ⟨n, hn, rfl⟩ := h
  obtain ⟨n', hn', rfl⟩ := h'
  rw [hn] at hn'
  cases hn'
  rfl

end Map

/-- Nodes keep what never changes, and stay marked. -/
structure Retains (m m' : Map Key Value) : Prop where
  count : m'.bucketCount = m.bucketCount
  node : ∀ x n, m.nodes x = some n → ∃ n', m'.nodes x = some n' ∧ n'.key = n.key ∧
    n'.value = n.value ∧ (n.isDeleted = true → n'.isDeleted = true)

namespace Retains

variable {m m' m'' : Map Key Value}

theorem refl (m : Map Key Value) : Retains m m := ⟨rfl, fun _ n hn => ⟨n, hn, rfl, rfl, id⟩⟩

section

variable (h : Retains m m')
include h

theorem trans (h' : Retains m' m'') : Retains m m'' where
  count := h'.count.trans h.count
  node := fun x n hn => by
    obtain ⟨n', hn', hkey, hvalue, hdeleted⟩ := h.node x n hn
    obtain ⟨n'', hn'', hkey', hvalue', hdeleted'⟩ := h'.node x n' hn'
    exact ⟨n'', hn'', hkey'.trans hkey, hvalue'.trans hvalue, hdeleted' ∘ hdeleted⟩

theorem marked {x : ℕ} (hx : m.Marked x) : m'.Marked x := by
  obtain ⟨n, hn, hdeleted⟩ := hx
  obtain ⟨n', hn', -, -, hdeleted'⟩ := h.node x n hn
  exact ⟨n', hn', hdeleted' hdeleted⟩

theorem keyed {x : ℕ} {key : Key} (hx : m.Keyed key x) : m'.Keyed key x := by
  obtain ⟨n, hn, rfl⟩ := hx
  obtain ⟨n', hn', hkey, -⟩ := h.node x n hn
  exact ⟨n', hn', hkey⟩

theorem undeleted {x : ℕ} {n : Node Key Value} (hn : m.nodes x = some n) (hx : m'.Undeleted x) :
    m.Undeleted x :=
  (Map.marked_or_undeleted hn).resolve_left fun hmark => (h.marked hmark).not_undeleted hx

end

end Retains

theorem retains_modify {m : Map Key Value} {x : ℕ} {f : Node Key Value → Node Key Value}
    (hf : ∀ n, (f n).key = n.key ∧ (f n).value = n.value ∧
      (n.isDeleted = true → (f n).isDeleted = true)) : Retains m (m.modify x f) where
  count := rfl
  node := fun y n hn => by
    rw [Map.nodes_modify, hn]
    refine ⟨_, rfl, ?_⟩
    split
    · exact hf n
    · exact ⟨rfl, rfl, id⟩

def rank (published : List ℕ) (x : ℕ) : ℤ := published.idxOf x

theorem rank_append {published : List ℕ} {x : ℕ} (hx : x ∈ published) (l : List ℕ) :
    rank (published ++ l) x = rank published x := by
  rw [rank, rank, idxOf_append_of_mem hx]

theorem rank_lt {published : List ℕ} {x : ℕ} (hx : x ∈ published) :
    rank published x < published.length :=
  Int.ofNat_lt.mpr (idxOf_lt_length_of_mem hx)

theorem rank_nonneg (published : List ℕ) (x : ℕ) : 0 ≤ rank published x := Int.natCast_nonneg _

theorem rank_new {published : List ℕ} {x : ℕ} (hx : x ∉ published) :
    rank (published ++ [x]) x = published.length := by
  rw [rank, idxOf_append_of_notMem hx]
  simp

theorem rank_inj {published : List ℕ} {x y : ℕ} (hx : x ∈ published)
    (h : rank published x = rank published y) : x = y :=
  (idxOf_inj hx).mp (Int.ofNat_inj.mp h)

variable [Hashable Key]

def In (m : Map Key Value) (published : List ℕ) (b x : ℕ) : Prop :=
  x ∈ published ∧ ∃ n, m.nodes x = some n ∧ m.hashKey n.key = b

theorem Map.Keyed.inBucket {m : Map Key Value} {published : List ℕ} {key : Key} {x : ℕ}
    (h : m.Keyed key x) (hx : x ∈ published) : In m published (m.hashKey key) x := by
  obtain ⟨n, hn, rfl⟩ := h
  exact ⟨hx, n, hn, rfl⟩

theorem In.unique {m : Map Key Value} {published : List ℕ} {b c x : ℕ} (h : In m published b x)
    (h' : In m published c x) : b = c := by
  obtain ⟨-, n, hn, rfl⟩ := h
  obtain ⟨-, n', hn', rfl⟩ := h'
  rw [hn] at hn'
  cases hn'
  rfl

/-- A pointer that leads to the unmarked nodes of its bucket of a rank below `r`. -/
structure Leads (m : Map Key Value) (published : List ℕ) (b : ℕ) (r : ℤ) (p : Option ℕ) : Prop where
  below : Below (rank published) (In m published b) r p
  reach : ∀ z, In m published b z → m.Undeleted z → rank published z < r → Reach m.bucketNext p z

structure Buckets (m : Map Key Value) (published : List ℕ) : Prop where
  head : ∀ b, Leads m published b published.length (m.buckets b)
  next : ∀ b x, In m published b x → Leads m published b (rank published x) (m.bucketNext x)

theorem Buckets.descends {m : Map Key Value} {published : List ℕ} (h : Buckets m published)
    (b : ℕ) : Descends m.bucketNext (rank published) (In m published b) :=
  fun x y hx hy => (h.next b x hx).below y hy

/-- What a step of any thread leaves of the chains. -/
structure ChainFrame (m m' : Map Key Value) (published published' : List ℕ) : Prop
    extends Retains m m' where
  grows : published <+: published'
  reach : ∀ b r p z, Below (rank published) (In m published b) r p → In m published b z →
    m'.Undeleted z → Reach m.bucketNext p z → Reach m'.bucketNext p z

namespace ChainFrame

variable {m m' m'' : Map Key Value} {published published' published'' : List ℕ}

theorem refl (m : Map Key Value) (published : List ℕ) : ChainFrame m m published published :=
  ⟨.refl m, prefix_refl _, fun _ _ _ _ _ _ _ h => h⟩

section

variable (h : ChainFrame m m' published published')
include h

theorem mem {x : ℕ} (hx : x ∈ published) : x ∈ published' :=
  h.grows.subset hx

theorem rank_eq {x : ℕ} (hx : x ∈ published) : rank published' x = rank published x := by
  obtain ⟨l, rfl⟩ := h.grows
  exact rank_append hx l

theorem inBucket {b x : ℕ} (hx : In m published b x) : In m' published' b x := by
  obtain ⟨hmem, n, hn, rfl⟩ := hx
  obtain ⟨n', hn', hkey, -⟩ := h.node x n hn
  exact ⟨h.mem hmem, n', hn', by rw [hashKey_congr h.count, hkey]⟩

theorem below {b : ℕ} {r : ℤ} {p : Option ℕ} (hp : Below (rank published) (In m published b) r p) :
    Below (rank published') (In m' published' b) r p := by
  intro y hy
  obtain ⟨hmem, hlt⟩ := hp y hy
  exact ⟨h.inBucket hmem, by rwa [h.rank_eq hmem.1]⟩

theorem of_inBucket (hnode : ∀ x ∈ published, ∃ n, m.nodes x = some n) {b x : ℕ}
    (hx : In m' published' b x) (hrank : rank published' x < published.length) :
    In m published b x := by
  obtain ⟨hmem, n', hn', hb⟩ := hx
  have hpub : x ∈ published := by
    by_contra hno
    obtain ⟨l, rfl⟩ := h.grows
    rw [rank, idxOf_append_of_notMem hno] at hrank
    omega
  obtain ⟨n, hn⟩ := hnode x hpub
  obtain ⟨n'', hn'', hkey, -⟩ := h.node x n hn
  rw [hn'] at hn''
  cases hn''
  exact ⟨hpub, n, hn, by rw [← hb, hashKey_congr h.count, hkey]⟩

theorem leads (hnode : ∀ x ∈ published, ∃ n, m.nodes x = some n) {b : ℕ} {r : ℤ} {p : Option ℕ}
    (hp : Leads m published b r p) (hr : r ≤ published.length) : Leads m' published' b r p where
  below := h.below hp.below
  reach := fun z hz hlive hlt => by
    have hold := h.of_inBucket hnode hz (by omega)
    obtain ⟨n, hn⟩ := hnode z hold.1
    rw [h.rank_eq hold.1] at hlt
    exact h.reach b r p z hp.below hold hlive (hp.reach z hold (h.undeleted hn hlive) hlt)

theorem trans (h' : ChainFrame m' m'' published' published'')
    (hnode : ∀ x ∈ published', ∃ n, m'.nodes x = some n) :
    ChainFrame m m'' published published'' where
  toRetains := h.toRetains.trans h'.toRetains
  grows := h.grows.trans h'.grows
  reach := fun b r p z hp hz hlive hr => by
    obtain ⟨n, hn⟩ := hnode z (h.mem hz.1)
    exact h'.reach b r p z (h.below hp) (h.inBucket hz) hlive
      (h.reach b r p z hp hz (h'.undeleted hn hlive) hr)

end

end ChainFrame

section Steps

variable {m m' : Map Key Value} {published : List ℕ}

theorem chainFrame_of_next (hr : Retains m m')
    (hnext : ∀ x ∈ published, m'.bucketNext x = m.bucketNext x) (h : Buckets m published) :
    ChainFrame m m' published published where
  toRetains := hr
  grows := prefix_refl _
  reach := fun b r p z hp hz _ hreach => by
    refine hreach.congr fun x hx => hnext x ?_
    exact (hx.lower (h.descends b) hp).1.1

theorem Buckets.of_next (h : Buckets m published) (hr : Retains m m')
    (hnode : ∀ x ∈ published, ∃ n, m.nodes x = some n) (hbuckets : m'.buckets = m.buckets)
    (hnext : ∀ x ∈ published, m'.bucketNext x = m.bucketNext x) : Buckets m' published := by
  have hframe := chainFrame_of_next hr hnext h
  refine ⟨fun b => ?_, fun b x hx => ?_⟩
  · rw [hbuckets]
    exact hframe.leads hnode (h.head b) (Int.le_refl _)
  · rw [hnext x hx.1]
    have hold := hframe.of_inBucket hnode hx (rank_lt hx.1)
    exact hframe.leads hnode (h.next b x hold) (Int.le_of_lt (rank_lt hx.1))

theorem chainFrame_publish (b : ℕ) (x : ℕ) :
    ChainFrame m (m.storeBucket b (some x)) published (published ++ [x]) where
  toRetains := ⟨rfl, fun _ n hn => ⟨n, hn, rfl, rfl, id⟩⟩
  grows := prefix_append _ _
  reach := fun _ _ _ _ _ _ _ hreach => hreach

theorem Buckets.publish (h : Buckets m published)
    (hnode : ∀ x ∈ published, ∃ n, m.nodes x = some n) {b x : ℕ} {n : Node Key Value}
    (hx : x ∉ published) (hn : m.nodes x = some n) (hb : m.hashKey n.key = b)
    (hnext : n.bucketNext = m.buckets b) :
    Buckets (m.storeBucket b (some x)) (published ++ [x]) := by
  have hframe : ChainFrame m (m.storeBucket b (some x)) published (published ++ [x]) :=
    chainFrame_publish b x
  have hnew : ∀ {c y}, In (m.storeBucket b (some x)) (published ++ [x]) c y →
      In m published c y ∨ (y = x ∧ c = b) := by
    rintro c y ⟨hy, n', hn', rfl⟩
    rcases mem_append.mp hy with hy | hy
    · exact .inl ⟨hy, n', hn', rfl⟩
    · obtain rfl := mem_singleton.mp hy
      have : some n' = some n := hn'.symm.trans hn
      cases this
      exact .inr ⟨rfl, hb⟩
  have hnext' : (m.storeBucket b (some x)).bucketNext x = m.buckets b :=
    (Map.bucketNext_node hn).trans hnext
  have hlength : ((published ++ [x]).length : ℤ) = published.length + 1 := by simp
  have hself : In (m.storeBucket b (some x)) (published ++ [x]) b x :=
    ⟨by simp, n, hn, hb⟩
  refine ⟨fun c => ?_, fun c y hy => ?_⟩
  · by_cases hc : c = b
    · subst hc
      have hbucket : (m.storeBucket c (some x)).buckets c = some x := by simp
      rw [hbucket]
      refine ⟨fun y hy => ?_, fun z hz hlive _ => ?_⟩
      · cases hy
        rw [rank_new hx, hlength]
        exact ⟨hself, by omega⟩
      · refine reach_some.mpr ?_
        rcases hnew hz with hz | ⟨rfl, -⟩
        · rw [hnext']
          exact .inr ((h.head c).reach z hz hlive (rank_lt hz.1))
        · exact .inl rfl
    · have hbucket : (m.storeBucket b (some x)).buckets c = m.buckets c := by simp [hc]
      rw [hbucket]
      refine ⟨fun y hy => ?_, fun z hz hlive _ => ?_⟩
      · obtain ⟨hmem, hlt⟩ := hframe.below (h.head c).below y hy
        rw [hlength]
        exact ⟨hmem, by omega⟩
      · rcases hnew hz with hz | ⟨-, hcb⟩
        · exact (h.head c).reach z hz hlive (rank_lt hz.1)
        · exact absurd hcb hc
  · rcases hnew hy with hy | ⟨rfl, rfl⟩
    · rw [rank_append hy.1]
      exact hframe.leads hnode (h.next c y hy) (Int.le_of_lt (rank_lt hy.1))
    · rw [rank_new hx, hnext']
      exact hframe.leads hnode (h.head c) (Int.le_refl _)

/-- A marked node `x` that a thread may splice out through `prev`, for the successor `q`. -/
structure Spliceable (m : Map Key Value) (published : List ℕ) (prev : Link) (x : ℕ)
    (q : Option ℕ) : Prop where
  marked : m.Marked x
  link : m.link prev = some x
  field : ∀ y, prev = .node y → y ∈ published
  leads : ∀ b, In m published b x → Leads m published b (rank published x) q

namespace Spliceable

variable {prev : Link} {x b : ℕ} {q : Option ℕ}

section

variable (hs : Spliceable m published prev x q)
include hs

theorem reach (h : Buckets m published) (hx : In m published b x) {z : ℕ} (hz : In m published b z)
    (hlive : m.Undeleted z) (hr : Reach m.bucketNext (some x) z) :
    Reach m.bucketNext q z ∧ z ≠ x := by
  have hne : z ≠ x := by
    rintro rfl
    exact hs.marked.not_undeleted hlive
  exact ⟨(hs.leads b hx).reach z hz hlive
    ((hr.ne_or_below (h.descends b) hx).resolve_left hne), hne⟩

theorem retains : Retains m (m.storeLink prev q) := by
  cases prev with
  | bucket c => exact ⟨rfl, fun _ n hn => ⟨n, hn, rfl, rfl, id⟩⟩
  | node y => exact retains_modify fun n => ⟨rfl, rfl, id⟩

theorem chainFrame (h : Buckets m published) (hnode : ∀ x ∈ published, ∃ n, m.nodes x = some n)
    (hx : In m published b x) : ChainFrame m (m.storeLink prev q) published published where
  toRetains := hs.retains
  grows := prefix_refl _
  reach := fun c r p z hp hz hlive hr => by
    cases prev with
    | bucket i => exact hr
    | node y =>
      have hy := hs.field y rfl
      obtain ⟨n, hn⟩ := hnode y hy
      obtain ⟨nz, hnz⟩ := hnode z hz.1
      have hlink : m.bucketNext y = some x := hs.link
      have hyb : In m published b y := by
        have hyc : In m published (m.hashKey n.key) y := ⟨hy, n, hn, rfl⟩
        rwa [((h.descends _) y x hyc hlink).1.unique hx] at hyc
      have hnext : (m.storeLink (.node y) q).bucketNext = update m.bucketNext y q :=
        Map.bucketNext_store ⟨n, hn⟩
      rw [hnext]
      by_cases hc : c = b
      · subst hc
        have hlive' := hs.retains.undeleted hnz hlive
        refine hr.splice (h.descends c) hyb hlink (hs.leads c hx).below ?_ ?_ hp
        · exact fun _ hlt => (hs.leads c hx).reach z hz hlive' hlt
        · rintro rfl
          exact hs.marked.not_undeleted hlive'
      · refine hr.congr fun w hw => update_of_ne ?_ _ _
        rintro rfl
        exact hc ((hw.lower (h.descends c) hp).1.unique hyb)

theorem buckets (h : Buckets m published) (hnode : ∀ x ∈ published, ∃ n, m.nodes x = some n)
    (hx : In m published b x) : Buckets (m.storeLink prev q) published := by
  have hframe := hs.chainFrame h hnode hx
  have hq : Leads (m.storeLink prev q) published b (rank published x) q :=
    hframe.leads hnode (hs.leads b hx) (Int.le_of_lt (rank_lt hx.1))
  -- the link that was stored into leads to what it led to before
  have hstored : ∀ {r}, rank published x < r → r ≤ published.length →
      Leads m published b r (some x) → Leads (m.storeLink prev q) published b r q := by
    intro r hr hle hlead
    refine ⟨hq.below.mono (Int.le_of_lt hr), fun z hz hlive hlt => ?_⟩
    have hz' := hframe.of_inBucket hnode hz (rank_lt hz.1)
    obtain ⟨n, hn⟩ := hnode z hz'.1
    have hlive' := hframe.undeleted hn hlive
    obtain ⟨hreach, -⟩ := hs.reach h hx hz' hlive' (hlead.reach z hz' hlive' hlt)
    exact hframe.reach b _ q z (hs.leads b hx).below hz' hlive hreach
  refine ⟨fun c => ?_, fun c y hy => ?_⟩
  · by_cases hc : prev = .bucket c
    · subst hc
      have hlink : m.buckets c = some x := hs.link
      obtain rfl : c = b := ((h.head c).below x hlink).1.unique hx
      have hbucket : (m.storeLink (.bucket c) q).buckets c = q := by simp [Map.storeLink]
      rw [hbucket]
      exact hstored (rank_lt hx.1) (Int.le_refl _) (hlink ▸ h.head c)
    · have hbucket : (m.storeLink prev q).buckets c = m.buckets c := by
        cases prev with
        | bucket i => exact update_of_ne (fun hi => hc (congrArg Link.bucket hi.symm)) _ _
        | node y => rfl
      rw [hbucket]
      exact hframe.leads hnode (h.head c) (Int.le_refl _)
  · have hold := hframe.of_inBucket hnode hy (rank_lt hy.1)
    by_cases hyp : prev = .node y
    · subst hyp
      have hlink : m.bucketNext y = some x := hs.link
      obtain ⟨hxc, hlt⟩ := h.descends c y x hold hlink
      obtain rfl : c = b := hxc.unique hx
      obtain ⟨n, hn⟩ := hnode y hold.1
      have hnext : (m.storeLink (.node y) q).bucketNext y = q := by
        rw [Map.storeLink, Map.bucketNext_store ⟨n, hn⟩, update_self]
      rw [hnext]
      exact hstored hlt (Int.le_of_lt (rank_lt hold.1)) (hlink ▸ h.next c y hold)
    · have hnext : (m.storeLink prev q).bucketNext y = m.bucketNext y := by
        cases prev with
        | bucket i => rfl
        | node w =>
          rw [Map.storeLink, Map.bucketNext, Map.nodes_modify, Map.bucketNext]
          have hne : y ≠ w := fun hw => hyp (hw ▸ rfl)
          cases m.nodes y <;> simp [hne]
      rw [hnext]
      exact hframe.leads hnode (h.next c y hold) (Int.le_of_lt (rank_lt hold.1))

end

end Spliceable

end Steps

end Equilibrium.LockFreeOrderedHashMap
