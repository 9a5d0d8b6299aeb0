import Equilibrium.Containers.LockFreeOrderedMapInsert

/-! `insert_internal` as a whole, for an argument that holds `moved` once the new node was
made from it. -/

namespace Equilibrium.LockFreeOrderedHashMap

open Library.LinkedChain

variable {Key Value : Type} [Hashable Key] [DecidableEq Key]
variable {m : Map Key Value} {chain : ℕ → List ℕ} {order : List ℕ}

namespace Map

def abandoned (m : Map Key Value) (key : Key) (value : Value) : Map Key Value :=
  ((m.prepared key value).modify m.allocated
    fun n => { n with isDeleted := true, orderSwept := true }).stageNode m.allocated

def discarded (m : Map Key Value) (key : Key) (value : Value) : Map Key Value :=
  (m.prepared key value).deleteNode m.allocated

end Map

theorem bucketPhase_present (h : Settled m chain order) {key : Key} (hkey : key ∈ m.keys order)
    (forward : Key → Key) (index : ℕ) (value : Value) (rounds failures : ℕ) :
    Map.bucketPhase forward index value (rounds + 1) failures m key none = .ok (m, none) := by
  rcases h.findInBucket (.refl m) rfl key with ⟨hkey', -⟩ | ⟨x, n, hfind, hlive, -⟩
  · exact absurd hkey hkey'
  · rw [Map.bucketPhase, hfind]
    simp [bind, Except.bind, Map.load_held hlive.1 hlive.2.2, hlive.2.1]

theorem bucketPhase_retry_present (h : Settled m chain order) {key moved : Key}
    (hmoved : moved ∈ m.keys order) (forward : Key → Key) (index : ℕ) (value value' : Value)
    (rounds failures : ℕ) :
    Map.bucketPhase forward index value' (rounds + 1) failures (m.prepared key value) moved
      (some m.allocated) = .ok (m.discarded key value, none) := by
  have hkeeps := h.keeps_prepared key value
  rcases h.findInBucket hkeeps rfl moved with ⟨hkey', -⟩ | ⟨x, n, hfind, hlive, -⟩
  · exact absurd hmoved hkey'
  · have hn : (m.prepared key value).nodes x = some n := (hkeeps.nodes x hlive.held).trans hlive.1
    rw [Map.bucketPhase, hfind]
    simp [bind, Except.bind, Map.load_held hn hlive.2.2, hlive.2.1, Map.discarded]

section

omit [DecidableEq Key]

theorem prepared_modify (key : Key) (value : Value) :
    ((m.prepared key value).modify m.allocated fun n =>
      { n with bucketNext := m.buckets (m.hashKey key) }) = m.prepared key value := by
  refine modify_eq_self fun n hn => ?_
  rw [Map.prepared_nodes, Function.update_self] at hn
  cases hn
  rfl

theorem newNode_modify (key : Key) (value : Value) :
    ((m.newNode key value).modify m.allocated fun n =>
      { n with bucketNext := m.buckets (m.hashKey key) }) = m.prepared key value := by
  simp [Map.modify, Map.newNode, Map.prepared, Map.fresh]

theorem prepared_bucketNext (key : Key) (value : Value) :
    (m.prepared key value).bucketNext m.allocated = m.buckets (m.hashKey key) :=
  Map.bucketNext_node (n := m.fresh key value) (Function.update_self _ _ _)

end

/-- The map when the new node has just become the head of its bucket. -/
def Map.headed (m : Map Key Value) (key : Key) (value : Value) : Map Key Value :=
  (m.prepared key value).storeBucket (m.hashKey key) (some m.allocated)

section

omit [DecidableEq Key]

theorem headed_bucketNext (key : Key) (value : Value) :
    (m.headed key value).bucketNext m.allocated = m.buckets (m.hashKey key) :=
  prepared_bucketNext key value

theorem keeps_headed (h : Bucketed m chain) (key : Key) (value : Value) :
    Keeps m (m.headed key value) :=
  ⟨rfl, Nat.le_succ _, (h.keeps_prepared key value).nodes⟩

/-- The own node is the head of its bucket, so the unlink puts the bucket back. -/
theorem backOff_eq (key : Key) (value : Value) :
    (m.headed key value).backOff m.allocated = .ok (m.abandoned key value) := by
  have hnode : ((m.headed key value).modify m.allocated
      fun n => { n with isDeleted := true, orderSwept := true }).nodes m.allocated =
      some { m.fresh key value with isDeleted := true, orderSwept := true } := by
    simp [Map.headed]
  have hbucket : ((m.headed key value).modify m.allocated
      fun n => { n with isDeleted := true, orderSwept := true }).buckets (m.hashKey key) =
      some m.allocated := by
    simp [Map.headed]
  have hhash : ((m.headed key value).modify m.allocated
      fun n => { n with isDeleted := true, orderSwept := true }).hashKey = (m.hashKey : Key → ℕ) :=
    rfl
  have hallocated : ((m.headed key value).modify m.allocated
      fun n => { n with isDeleted := true, orderSwept := true }).allocated = m.allocated + 1 := rfl
  have hload := Map.load_held hnode rfl
  simp only [Map.backOff, Map.tryUnlinkFromBucket, hload, hhash, hallocated, bind, Except.bind]
  have hfresh : (m.fresh key value).key = key := rfl
  rw [hfresh, hbucket]
  simp only [Map.tryUnlinkLoop, hload, bind, Except.bind, if_true, Map.exchangeLink, Map.link,
    hbucket, Map.storeLink]
  have hback : (m.fresh key value).bucketNext = m.buckets (m.hashKey key) := rfl
  rw [hback]
  simp [Map.abandoned, Map.headed, Map.storeBucket, Map.modify, Map.stageNode]

end

theorem bucketPhase_retry_absent (h : Settled m chain order) {key moved : Key}
    (hmoved : moved ∉ m.keys order) (forward : Key → Key) (value value' : Value)
    {rounds failures : ℕ} (hrounds : failures < rounds) :
    Map.bucketPhase forward (m.hashKey key) value' rounds failures (m.prepared key value) moved
      (some m.allocated) = .ok (m.published key value, some m.allocated) := by
  have hfind : (m.prepared key value).findInBucket moved = .ok none := by
    rcases h.findInBucket (h.keeps_prepared key value) rfl moved with ⟨-, hf⟩ | ⟨x, n, -, hlive, rfl⟩
    · exact hf
    · exact absurd (h.mem_keys.mpr ⟨x, n, hlive, rfl⟩) hmoved
  have hscan : (m.headed key value).liveLoop moved (m.headed key value).allocated
      (m.buckets (m.hashKey key)) = .ok none := by
    rcases h.liveLoop (keeps_headed h.toBucketed key value) moved (m.hashKey key) with
      ⟨-, hf⟩ | ⟨x, n, -, hlive, rfl, -⟩
    · exact hf
    · exact absurd (h.mem_keys.mpr ⟨x, n, hlive, rfl⟩) hmoved
  induction failures generalizing rounds with
  | zero =>
    obtain ⟨rounds, rfl⟩ : ∃ r, rounds = r + 1 := ⟨rounds - 1, by omega⟩
    have hbuckets : (m.prepared key value).buckets = m.buckets := rfl
    rw [Map.bucketPhase, hfind]
    simp only [bind, Except.bind, hbuckets, prepared_modify, if_true]
    rw [← Map.headed, headed_bucketNext, hscan]
    rfl
  | succ failures ih =>
    obtain ⟨rounds, rfl⟩ : ∃ r, rounds = r + 1 := ⟨rounds - 1, by omega⟩
    have hbuckets : (m.prepared key value).buckets = m.buckets := rfl
    rw [Map.bucketPhase, hfind]
    simp only [bind, Except.bind, hbuckets, prepared_modify]
    exact ih (by omega)

theorem bucketPhase_failed (h : Settled m chain order) {key : Key} (hkey : key ∉ m.keys order)
    (forward : Key → Key) (value : Value) (rounds failures : ℕ) :
    Map.bucketPhase forward (m.hashKey key) value (rounds + 1) (failures + 1) m key none =
      Map.bucketPhase forward (m.hashKey key) value rounds failures (m.prepared key value)
        (forward key) (some m.allocated) := by
  rcases h.findInBucket (.refl m) rfl key with ⟨-, hfind⟩ | ⟨x, n, -, hlive, rfl⟩
  · rw [Map.bucketPhase, hfind]
    simp only [bind, Except.bind, Map.newNode_buckets, newNode_modify]
  · exact absurd (h.mem_keys.mpr ⟨x, n, hlive, rfl⟩) hkey

theorem bucketPhase_first (h : Settled m chain order) {key : Key} (hkey : key ∉ m.keys order)
    (forward : Key → Key) (value : Value) (rounds : ℕ) :
    Map.bucketPhase forward (m.hashKey key) value (rounds + 1) 0 m key none =
      .ok (if forward key ∈ m.keys order ∧ m.hashKey (forward key) = m.hashKey key then
        (m.abandoned key value, none)
      else (m.published key value, some m.allocated)) := by
  rcases h.findInBucket (.refl m) rfl key with ⟨-, hfind⟩ | ⟨x, n, -, hlive, rfl⟩
  · rw [Map.bucketPhase, hfind]
    simp only [bind, Except.bind, Map.newNode_buckets, newNode_modify, Map.prepared_buckets, if_true]
    rw [← Map.headed, headed_bucketNext]
    rcases h.liveLoop (keeps_headed h.toBucketed key value) (forward key) (m.hashKey key) with
      ⟨hno, hscan⟩ | ⟨x, n, hscan, hlive, hmoved, hindex⟩
    · rw [hscan, if_neg hno]
      rfl
    · have hmem : forward key ∈ m.keys order := h.mem_keys.mpr ⟨x, n, hlive, hmoved⟩
      rw [hscan, if_pos ⟨hmem, hindex⟩, backOff_eq]
  · exact absurd (h.mem_keys.mpr ⟨x, n, hlive, rfl⟩) hkey

/-! What an insertion leaves when it fails. -/

section

omit [DecidableEq Key]

theorem Settled.garbage (h : Settled m chain order) {m' : Map Key Value} {n : Node Key Value}
    (hnodes : m'.nodes = Function.update m.nodes m.allocated (some n))
    (hgarbage : n.isDeleted = true ∨ n.freed = true)
    (hunswept : n.bucketSwept = false ∧ n.retiredEpoch = -1)
    (hbuckets : m'.buckets = m.buckets) (hcount : m'.bucketCount = m.bucketCount)
    (hallocated : m'.allocated = m.allocated + 1) (hhead : m'.orderHead = m.orderHead)
    (htail : m'.orderTail = m.orderTail) (hall : m'.allNodes = m.allNodes)
    (hstaging : ∀ x, x ∈ m'.staging ↔ x ∈ m.staging ∨ (x = m.allocated ∧ n.freed = false)) :
    Settled m' chain order ∧ m'.pairs order = m.pairs order := by
  have hnew : m'.nodes m.allocated = some n := by rw [hnodes, Function.update_self]
  have hold : ∀ {x}, x ≠ m.allocated → m'.nodes x = m.nodes x := fun hx => by
    rw [hnodes, Function.update_of_ne hx]
  have hlive : ∀ {x n'}, m'.Live x n' ↔ m.Live x n' := by
    intro x n'
    by_cases hx : x = m.allocated
    · subst hx
      refine iff_of_false (fun hl => ?_) fun hl => h.ne_new hl.held rfl
      obtain ⟨hn', hdeleted, hfreed⟩ := hl
      rw [hnew] at hn'
      cases hn'
      rcases hgarbage with hg | hg
      · cases hg.symm.trans hdeleted
      · cases hg.symm.trans hfreed
    · rw [Map.Live, Map.Live, hold hx]
  have hheld : ∀ {x}, m.Held x → m'.nodes x = m.nodes x := fun hx => hold (h.ne_new hx)
  have hbucketed : Bucketed m' chain := by
    refine ⟨hcount ▸ h.positive, fun b => ?_, fun b x => ?_, fun x y n n' hx hy => ?_,
      fun x n' hn' => ?_, fun x n' hn' => ?_, fun x => ?_⟩
    · rw [hbuckets]
      exact (h.bucketChain b).congr fun x hx => Map.bucketNext_congr (hheld (h.held hx))
    · rw [h.mem_chain, hashKey_congr hcount]
      simp only [hlive]
    · exact h.keys x y n n' (hlive.mp hx) (hlive.mp hy)
    · by_cases hx : x = m.allocated
      · subst hx
        rw [hnew] at hn'
        cases hn'
        exact hunswept
      · exact h.unswept x n' ((hold hx).symm.trans hn')
    · rw [hallocated]
      by_cases hx : x = m.allocated
      · exact hx ▸ Nat.lt_succ_self _
      · exact Nat.lt_succ_of_lt (h.bounded x n' ((hold hx).symm.trans hn'))
    · rw [hall, List.mem_append, hstaging, ← or_assoc, ← List.mem_append, h.tracked]
      by_cases hx : x = m.allocated
      · subst hx
        have hnot : ¬ m.Held m.allocated := fun hx => h.ne_new hx rfl
        rw [or_iff_right hnot, Map.Held, hnew]
        simp
      · simp [hx, Map.Held, hold hx]
  refine ⟨⟨hbucketed, ?_, htail.trans h.tail, fun x hx => ?_, fun x n' hl =>
    h.live_listed x n' (hlive.mp hl)⟩, ?_⟩
  · rw [hhead]
    exact h.orderChain.congr fun x hx => Map.orderNext_congr (hheld (h.listed x hx))
  · rw [Map.Held, hheld (h.listed x hx)]
    exact h.listed x hx
  · exact List.filterMap_congr fun x hx => Map.pair_congr (hheld (h.listed x hx))

theorem prepared_modify_nodes (key : Key) (value : Value)
    (f : Node Key Value → Node Key Value) : ((m.prepared key value).modify m.allocated f).nodes =
      Function.update m.nodes m.allocated (some (f (m.fresh key value))) := by
  simp [Map.modify, Map.prepared]

theorem Settled.abandoned (h : Settled m chain order) (key : Key) (value : Value) :
    Settled (m.abandoned key value) chain order ∧
      (m.abandoned key value).pairs order = m.pairs order := by
  refine h.garbage (n := { m.fresh key value with isDeleted := true, orderSwept := true }) ?_
    (.inl rfl) ⟨rfl, rfl⟩ rfl rfl rfl rfl rfl rfl fun x => ?_
  · exact prepared_modify_nodes key value _
  · simp only [Map.abandoned, Map.stageNode, List.mem_cons]
    exact ⟨fun hx => hx.symm.imp_right fun hx => ⟨hx, rfl⟩, fun hx => hx.symm.imp_left And.left⟩

theorem Settled.discarded (h : Settled m chain order) (key : Key) (value : Value) :
    Settled (m.discarded key value) chain order ∧
      (m.discarded key value).pairs order = m.pairs order := by
  refine h.garbage (n := { m.fresh key value with freed := true }) ?_ (.inr rfl) ⟨rfl, rfl⟩ rfl rfl
    rfl rfl rfl rfl fun x => ?_
  · exact prepared_modify_nodes key value _
  · exact ⟨.inl, fun hx => hx.resolve_right fun hx => absurd hx.2 nofun⟩

end

/-- An insertion, for every argument and every number of spurious failures. -/
theorem insertInternal_eq (h : Settled m chain order) (forward : Key → Key)
    (failures : Map.Failures) (key : Key) (value : Value) :
    m.insertInternal forward failures key value = .ok (
      if key ∈ m.keys order then (m, false)
      else if forward key ∈ m.keys order ∧
          (failures.bucket ≠ 0 ∨ m.hashKey (forward key) = m.hashKey key) then
        (if failures.bucket = 0 then m.abandoned key value else m.discarded key value, false)
      else ((m.published key value).appended m.allocated, true)) := by
  rw [Map.insertInternal]
  by_cases hkey : key ∈ m.keys order
  · rw [if_pos hkey, bucketPhase_present h hkey]
    rfl
  rw [if_neg hkey]
  obtain ⟨bucket, order'⟩ := failures
  have happend := h.orderPhase key value order'
  cases bucket with
  | zero =>
    rw [bucketPhase_first h hkey]
    simp only [ne_eq, not_true_eq_false, false_or, if_true]
    split
    · rfl
    · simp only [bind, Except.bind, happend]
  | succ bucket =>
    dsimp only
    rw [bucketPhase_failed h hkey]
    by_cases hmoved : forward key ∈ m.keys order
    · obtain ⟨rounds, hrounds⟩ : ∃ r, bucket + 1 + m.allocated = r + 1 :=
        ⟨bucket + m.allocated, by omega⟩
      rw [hrounds, bucketPhase_retry_present h hmoved]
      simp [bind, Except.bind, hmoved]
    · rw [bucketPhase_retry_absent h hmoved _ _ _ (by omega)]
      simp [bind, Except.bind, hmoved, happend]

end Equilibrium.LockFreeOrderedHashMap
