import Equilibrium.Containers.LockFreeOrderedMapOrder

/-! What is true of a thread at each place of the code, and that the steps of the other
threads leave it true. -/

namespace Equilibrium.LockFreeOrderedHashMap

open Library.LinkedChain

variable {Thread Key Value : Type}

def Draft.own : Draft Value → Option ℕ
  | .value _ => none
  | .node x => some x

def Walk.own : Walk Value → Option ℕ
  | .search draft => draft.own
  | .scan new => some new
  | .find => none
  | .remove => none

def Resume.own : Resume Key Value → Option ℕ
  | .retry _ draft => draft.own
  | .backOff _ new => some new
  | .removed _ _ => none

def Pc.own : Pc Key Value → Option ℕ
  | .loadHead op _ => op.own
  | .loadDeleted op _ _ => op.own
  | .loadNext op _ _ => op.own
  | .loadOldHead _ new => some new
  | .storeNext _ new _ => some new
  | .publish _ new _ => some new
  | .giveUp _ new => some new
  | .unlinkHead after _ => after.own
  | .unlinkStep after _ _ => after.own
  | .unlinkNext after _ _ => after.own
  | .unlinkExchange after _ _ _ => after.own
  | .loadStaging _ new _ => some new
  | .exchangeStaging _ new _ _ => some new
  | .resetOrder _ new => some new
  | .loadTail _ new => some new
  | .exchangeHead _ new => some new
  | .initTail _ new => some new
  | .loadOrderNext _ new _ => some new
  | .reloadTail _ new _ _ => some new
  | .helpTail _ new _ _ => some new
  | .append _ new _ => some new
  | .advanceTail _ new _ => some new
  | .idle _ => none
  | .construct _ _ => none
  | .mark _ _ => none
  | .postMutate _ _ => none
  | .gc _ _ => none

def Resume.taken : Resume Key Value → Option (Key × ℕ)
  | .retry _ _ => none
  | .backOff _ _ => none
  | .removed key x => some (key, x)

def Caller.taken : Caller Key → Option (Key × ℕ)
  | .collect => none
  | .remove key removed => removed.map (key, ·)

def Pc.taken : Pc Key Value → Option (Key × ℕ)
  | .unlinkHead after _ => after.taken
  | .unlinkStep after _ _ => after.taken
  | .unlinkNext after _ _ => after.taken
  | .unlinkExchange after _ _ _ => after.taken
  | .postMutate key removed => removed.map (key, ·)
  | .gc caller _ => caller.taken
  | _ => none

def Resume.backsOff : Resume Key Value → Bool
  | .backOff _ _ => true
  | _ => false

def Pc.backsOff : Pc Key Value → Bool
  | .unlinkHead after _ => after.backsOff
  | .unlinkStep after _ _ => after.backsOff
  | .unlinkNext after _ _ => after.backsOff
  | .unlinkExchange after _ _ _ => after.backsOff
  | .loadStaging _ _ live => !live
  | .exchangeStaging _ _ live _ => !live
  | _ => false

inductive Task (Key : Type) where
  | insert (key : Key)
  | remove (key : Key)
  | find (key : Key)
  | collectGarbage
  deriving DecidableEq

def Walk.task (key : Key) : Walk Value → Task Key
  | .search _ => .insert key
  | .scan _ => .insert key
  | .find => .find key
  | .remove => .remove key

def Resume.task : Resume Key Value → Task Key
  | .retry key _ => .insert key
  | .backOff key _ => .insert key
  | .removed key _ => .remove key

def Caller.task : Caller Key → Task Key
  | .collect => .collectGarbage
  | .remove key _ => .remove key

def Pc.task : Pc Key Value → Option (Task Key)
  | .idle _ => none
  | .loadHead op key => some (op.task key)
  | .loadDeleted op key _ => some (op.task key)
  | .loadNext op key _ => some (op.task key)
  | .construct key _ => some (.insert key)
  | .loadOldHead key _ => some (.insert key)
  | .storeNext key _ _ => some (.insert key)
  | .publish key _ _ => some (.insert key)
  | .giveUp key _ => some (.insert key)
  | .mark key _ => some (.remove key)
  | .unlinkHead after _ => some after.task
  | .unlinkStep after _ _ => some after.task
  | .unlinkNext after _ _ => some after.task
  | .unlinkExchange after _ _ _ => some after.task
  | .loadStaging key _ _ => some (.insert key)
  | .exchangeStaging key _ _ _ => some (.insert key)
  | .resetOrder key _ => some (.insert key)
  | .loadTail key _ => some (.insert key)
  | .exchangeHead key _ => some (.insert key)
  | .initTail key _ => some (.insert key)
  | .loadOrderNext key _ _ => some (.insert key)
  | .reloadTail key _ _ _ => some (.insert key)
  | .helpTail key _ _ _ => some (.insert key)
  | .append key _ _ => some (.insert key)
  | .advanceTail key _ _ => some (.insert key)
  | .postMutate key _ => some (.remove key)
  | .gc caller _ => some caller.task

def Draft.argument (key : Key) : Draft Value → Option (Key × Value)
  | .value v => some (key, v)
  | .node _ => none

def Walk.argument (key : Key) : Walk Value → Option (Key × Value)
  | .search draft => draft.argument key
  | _ => none

def Resume.argument : Resume Key Value → Option (Key × Value)
  | .retry key draft => draft.argument key
  | _ => none

def Pc.argument : Pc Key Value → Option (Key × Value)
  | .loadHead op key => op.argument key
  | .loadDeleted op key _ => op.argument key
  | .loadNext op key _ => op.argument key
  | .construct key value => some (key, value)
  | .unlinkHead after _ => after.argument
  | .unlinkStep after _ _ => after.argument
  | .unlinkNext after _ _ => after.argument
  | .unlinkExchange after _ _ _ => after.argument
  | _ => none

/-- The thread holds `gc_mutex_`. -/
def Pc.collects : Pc Key Value → Bool
  | .gc _ .lock => false
  | .gc _ _ => true
  | _ => false

/-- The call has returned `true` from `insert` or `remove`. -/
def Pc.succeeded : Pc Key Value → Bool
  | .idle .inserted => true
  | .idle .removed => true
  | _ => false

def Pc.holds (pc : Pc Key Value) : Option ℕ × Option (Key × ℕ) × Bool × Bool × Bool :=
  (pc.own, pc.taken, pc.backsOff, pc.collects, pc.succeeded)

variable [Hashable Key]

namespace State

variable (s : State Thread Key Value)

def Pending (key : Key) (x : ℕ) : Prop :=
  x ∉ s.published ∧ ∃ v p, s.map.nodes x = some { Node.new key v with bucketNext := p }

/-- A published node that its thread may still append to the order list. -/
def Owned (key : Key) (x : ℕ) : Prop :=
  x ∈ s.published ∧ x ∉ s.appended ∧
    ∃ n, s.map.nodes x = some n ∧ n.key = key ∧ n.orderNext = none ∧ n.orderSwept = false

def Dropped (key : Key) (x : ℕ) : Prop :=
  x ∈ s.published ∧ s.map.Keyed key x ∧ s.map.Marked x

/-- A node of the key was published before `x`. -/
def Older (key : Key) (x z : ℕ) : Prop :=
  z ∈ s.published ∧ s.map.Keyed key z ∧ rank s.published z < rank s.published x

/-- The scan from behind `x` has found no duplicate. -/
def NoOlder (key : Key) (x : ℕ) : Prop := ∀ z, s.Older key x z → ¬ s.map.Undeleted z

/-- The unmarked duplicates of `x` are ahead of the scan at `y`. -/
def Ahead (key : Key) (x y : ℕ) : Prop :=
  ∀ z, s.Older key x z → s.map.Undeleted z → Reach s.map.bucketNext (some y) z

/-- The tail has come to `t`. -/
def Reached (t : ℕ) : Prop :=
  t ∈ s.appended ∧ ∃ u, s.map.orderTail = some u ∧ place s.appended u ≤ place s.appended t

/-- The node `y` was appended after `t`. -/
def Behind (t y : ℕ) : Prop :=
  t ∈ s.appended ∧ y ∈ s.appended ∧ place s.appended y < place s.appended t

def Linked (prev : Option ℕ) : Prop :=
  ∀ a, prev = some a → a ∈ s.appended ∧ Reach s.map.orderNext s.map.orderHead a

def Field (prev : Link) : Prop := ∀ y, prev = .node y → y ∈ s.published

/-- A successor of `x`, read at some time. -/
def Successor (x : ℕ) (q : Option ℕ) : Prop :=
  ∀ b, In s.map s.published b x → Leads s.map s.published b (rank s.published x) q

def DraftOk (key : Key) : Draft Value → Prop
  | .value _ => True
  | .node x => s.Pending key x

def ResumeOk : Resume Key Value → Prop
  | .retry key draft => s.DraftOk key draft
  | .backOff key new => s.Dropped key new ∧ new ∉ s.appended
  | .removed key x => s.Dropped key x

def CallerOk : Caller Key → Prop
  | .collect => True
  | .remove key removed => ∀ x, removed = some x → s.Dropped key x

def GcOk : GcPc → Prop
  | .sweepNext _ prev x => s.Field prev ∧ x ∈ s.published
  | .sweepDeleted _ prev x next => s.Field prev ∧ x ∈ s.published ∧ s.Successor x next
  | .sweepExchange _ prev x next =>
    s.Field prev ∧ x ∈ s.published ∧ s.Successor x next ∧ s.map.Marked x
  | .orderNext prev x => s.Linked prev ∧ s.Linked (some x)
  | .orderDeleted prev x next =>
    s.Linked prev ∧ s.Linked (some x) ∧ ∀ y, next = some y → s.map.orderNext x = some y
  | .orderExchange prev x next =>
    s.Linked prev ∧ s.Linked (some x) ∧ s.map.orderNext x = some next ∧ s.map.Marked x
  | .orderReload prev => s.Linked prev
  | .stamp _ rest => ∀ x ∈ rest, x ∈ s.published
  | .free _ rest kept => (∀ x ∈ rest, x ∈ s.published) ∧ ∀ x ∈ kept, x ∈ s.published
  | _ => True

def PcOk : Pc Key Value → Prop
  | .idle _ => True
  | .loadHead (.search draft) key => s.DraftOk key draft
  | .loadHead (.scan _) _ => False
  | .loadHead .find _ => True
  | .loadHead .remove _ => True
  | .loadDeleted (.search draft) key x =>
    s.DraftOk key draft ∧ x ∈ s.published ∧ s.map.Keyed key x
  | .loadDeleted (.scan new) key x =>
    s.Owned key new ∧ x ∈ s.published ∧ s.map.Keyed key x ∧ s.Ahead key new x
  | .loadDeleted .find key x => x ∈ s.published ∧ s.map.Keyed key x
  | .loadDeleted .remove _ _ => False
  | .loadNext (.search draft) key x =>
    s.DraftOk key draft ∧ In s.map s.published (s.map.hashKey key) x
  | .loadNext (.scan new) key x =>
    s.Owned key new ∧ In s.map s.published (s.map.hashKey key) x ∧ s.Ahead key new x ∧
      (s.Older key new x → s.map.Marked x)
  | .loadNext .find key x => In s.map s.published (s.map.hashKey key) x
  | .loadNext .remove key x => In s.map s.published (s.map.hashKey key) x
  | .construct _ _ => True
  | .loadOldHead key new => s.Pending key new
  | .storeNext key new _ => s.Pending key new
  | .publish key new oldHead => s.Pending key new ∧ s.map.bucketNext new = oldHead
  | .giveUp key new => s.Owned key new
  | .mark key x => x ∈ s.published ∧ s.map.Keyed key x
  | .unlinkHead after node => s.ResumeOk after ∧ node ∈ s.published ∧ s.map.Marked node
  | .unlinkStep after node y =>
    s.ResumeOk after ∧ node ∈ s.published ∧ s.map.Marked node ∧ y ∈ s.published
  | .unlinkNext after node prev =>
    s.ResumeOk after ∧ node ∈ s.published ∧ s.map.Marked node ∧ s.Field prev
  | .unlinkExchange after node prev next =>
    s.ResumeOk after ∧ node ∈ s.published ∧ s.map.Marked node ∧ s.Field prev ∧
      s.Successor node next
  | .loadStaging key new true => s.Owned key new ∧ s.NoOlder key new
  | .loadStaging key new false => s.Dropped key new ∧ new ∉ s.appended
  | .exchangeStaging key new true _ => s.Owned key new ∧ s.NoOlder key new
  | .exchangeStaging key new false _ => s.Dropped key new ∧ new ∉ s.appended
  | .resetOrder key new => s.Owned key new ∧ s.NoOlder key new
  | .loadTail key new => s.Owned key new ∧ s.NoOlder key new
  | .exchangeHead key new => s.Owned key new ∧ s.NoOlder key new
  | .initTail key new => new ∈ s.appended ∧ s.map.Keyed key new
  | .loadOrderNext key new tail => (s.Owned key new ∧ s.NoOlder key new) ∧ s.Reached tail
  | .reloadTail key new tail next =>
    (s.Owned key new ∧ s.NoOlder key new) ∧ s.Reached tail ∧
      ∀ y, next = some y → s.Behind tail y
  | .helpTail key new tail next => (s.Owned key new ∧ s.NoOlder key new) ∧ s.Behind tail next
  | .append key new tail => (s.Owned key new ∧ s.NoOlder key new) ∧ s.Reached tail
  | .advanceTail key new tail =>
    (new ∈ s.appended ∧ s.map.Keyed key new) ∧ s.Behind tail new
  | .postMutate key removed => s.CallerOk (.remove key removed)
  | .gc caller pc => s.CallerOk caller ∧ s.GcOk pc

end State

/-- What holds of the memory in every state. -/
structure Mem (s : State Thread Key Value) : Prop where
  bounded : ∀ x n, s.map.nodes x = some n → x < s.map.allocated
  node : ∀ x ∈ s.published, ∃ n, s.map.nodes x = some n
  published : s.published.Nodup
  buckets : Buckets s.map s.published
  order : OrderList s.map s.appended
  appended : ∀ x ∈ s.appended, x ∈ s.published
  staging : ∀ x ∈ s.map.staging, x ∈ s.published
  allNodes : ∀ x ∈ s.map.allNodes, x ∈ s.published

/-- What a step of any thread leaves of the memory. -/
structure Frame (s s' : State Thread Key Value) : Prop where
  chain : ChainFrame s.map s'.map s.published s'.published
  appended : s.appended <+: s'.appended
  tail : ∀ t, s.Reached t → ∃ u, s'.map.orderTail = some u ∧
    place s'.appended u ≤ place s'.appended t

/-- A step that leaves the node `x`, which its own thread inserts, alone. -/
structure Spares (s s' : State Thread Key Value) (x : ℕ) : Prop where
  pending : x ∉ s.published → x ∉ s'.published ∧ s'.map.nodes x = s.map.nodes x
  owned : x ∉ s.appended → x ∉ s'.appended ∧ ∀ n, s.map.nodes x = some n →
    ∃ n', s'.map.nodes x = some n' ∧ n'.orderNext = n.orderNext ∧ n'.orderSwept = n.orderSwept

/-- A step that takes no node out of the order list. -/
structure KeepsOrder (s s' : State Thread Key Value) : Prop where
  next : ∀ x ∈ s.appended, ∀ y, s.map.orderNext x = some y → s'.map.orderNext x = some y
  reach : ∀ x ∈ s.appended, Reach s.map.orderNext s.map.orderHead x →
    Reach s'.map.orderNext s'.map.orderHead x

namespace Frame

variable {s s' : State Thread Key Value}

variable {x : ℕ}

theorem mem (h : Frame s s') (hx : x ∈ s.published) : x ∈ s'.published := h.chain.mem hx

theorem memAppended (h : Frame s s') (hx : x ∈ s.appended) : x ∈ s'.appended :=
  h.appended.subset hx

theorem place_eq (h : Frame s s') (hx : x ∈ s.appended) :
    place s'.appended x = place s.appended x := by
  obtain ⟨l, hl⟩ := h.appended
  rw [← hl, place_append hx]

variable {key : Key}

section

variable (h : Frame s s')
include h

theorem keyed (hx : s.map.Keyed key x) : s'.map.Keyed key x := h.chain.keyed hx

theorem marked (hx : s.map.Marked x) : s'.map.Marked x :=
  h.chain.marked hx

theorem dropped (hx : s.Dropped key x) : s'.Dropped key x :=
  ⟨h.mem hx.1, h.keyed hx.2.1, h.marked hx.2.2⟩

theorem inBucket (hx : In s.map s.published (s.map.hashKey key) x) :
    In s'.map s'.published (s'.map.hashKey key) x := by
  rw [hashKey_congr h.chain.count]
  exact h.chain.inBucket hx

theorem undeleted (hm : Mem s) {x : ℕ} (hx : x ∈ s.published) (hlive : s'.map.Undeleted x) :
    s.map.Undeleted x := by
  obtain ⟨n, hn⟩ := hm.node x hx
  exact h.chain.undeleted hn hlive

theorem older (hm : Mem s) {key : Key} {x z : ℕ} (hx : x ∈ s.published) (hz : s'.Older key x z) :
    s.Older key x z := by
  obtain ⟨hmem, ⟨n', hn', rfl⟩, hlt⟩ := hz
  rw [h.chain.rank_eq hx] at hlt
  have hpub : z ∈ s.published := by
    by_contra hno
    obtain ⟨l, hl⟩ := h.chain.grows
    rw [← hl, rank, List.idxOf_append_of_notMem hno] at hlt
    have := rank_lt hx
    omega
  obtain ⟨n, hn⟩ := hm.node z hpub
  obtain ⟨n'', hn'', hkey, -⟩ := h.chain.node z n hn
  rw [hn'] at hn''
  cases hn''
  rw [h.chain.rank_eq hpub] at hlt
  exact ⟨hpub, ⟨n, hn, hkey.symm⟩, hlt⟩

theorem noOlder (hm : Mem s) {key : Key} {x : ℕ} (hx : x ∈ s.published) (hno : s.NoOlder key x) :
    s'.NoOlder key x := fun z hz hlive =>
  have hz' := h.older hm hx hz
  hno z hz' (h.undeleted hm hz'.1 hlive)

theorem ahead (hm : Mem s) {y : ℕ} (hx : x ∈ s.published)
    (hy : In s.map s.published (s.map.hashKey key) y) (ha : s.Ahead key x y) :
    s'.Ahead key x y := fun z hz hlive => by
  have hz' := h.older hm hx hz
  refine h.chain.reach _ (rank s.published y + 1) (some y) z (fun w hw => ?_)
    (hz'.2.1.inBucket hz'.1) hlive (ha z hz' (h.undeleted hm hz'.1 hlive))
  cases hw
  exact ⟨hy, Int.lt_succ _⟩

theorem reached {t : ℕ} (ht : s.Reached t) : s'.Reached t :=
  ⟨h.memAppended ht.1, h.tail t ht⟩

theorem behind {t y : ℕ} (hty : s.Behind t y) : s'.Behind t y := by
  obtain ⟨ht, hy, hlt⟩ := hty
  exact ⟨h.memAppended ht, h.memAppended hy, by rwa [h.place_eq ht, h.place_eq hy]⟩

theorem field {prev : Link} (hp : s.Field prev) : s'.Field prev :=
  fun y hy => h.mem (hp y hy)

theorem successor (hm : Mem s) {q : Option ℕ} (hx : x ∈ s.published) (hq : s.Successor x q) :
    s'.Successor x q := fun b hb => by
  rw [h.chain.rank_eq hx]
  have hb' := h.chain.of_inBucket hm.node hb (by rw [h.chain.rank_eq hx]; exact rank_lt hx)
  exact h.chain.leads hm.node (hq b hb') (Int.le_of_lt (rank_lt hx))

end

end Frame

namespace Spares

variable {s s' : State Thread Key Value}

omit [Hashable Key] in
theorem keepsPending {x : ℕ} (h : Spares s s' x) {key : Key} (hx : s.Pending key x) :
    s'.Pending key x := by
  obtain ⟨hmem, hnode⟩ := hx
  obtain ⟨hmem', heq⟩ := h.pending hmem
  exact ⟨hmem', heq ▸ hnode⟩

theorem keepsOwned {x : ℕ} (h : Spares s s' x) (hf : Frame s s') {key : Key}
    (hx : s.Owned key x) : s'.Owned key x := by
  obtain ⟨hmem, hno, n, hn, rfl, hnext, hswept⟩ := hx
  obtain ⟨hno', hnode⟩ := h.owned hno
  obtain ⟨n', hn', hnext', hswept'⟩ := hnode n hn
  obtain ⟨n'', hn'', hkey, -⟩ := hf.chain.node x n hn
  rw [hn'] at hn''
  cases hn''
  exact ⟨hf.mem hmem, hno', n', hn', hkey, hnext'.trans hnext, hswept'.trans hswept⟩

end Spares

section Kept

variable {s s' : State Thread Key Value}

theorem Frame.linked (h : Frame s s') (ho : KeepsOrder s s') {prev : Option ℕ}
    (hp : s.Linked prev) : s'.Linked prev := fun a ha =>
  ⟨h.memAppended (hp a ha).1, ho.reach a (hp a ha).1 (hp a ha).2⟩

omit [Hashable Key] in
theorem Frame.draftOk {key : Key} {draft : Draft Value}
    (hs : ∀ x, draft.own = some x → Spares s s' x) (h : s.DraftOk key draft) :
    s'.DraftOk key draft := by
  cases draft with
  | value v => trivial
  | node x => exact (hs x rfl).keepsPending h

section

variable (hf : Frame s s')
include hf

theorem Frame.resumeOk {after : Resume Key Value} (hs : ∀ x, after.own = some x → Spares s s' x)
    (h : s.ResumeOk after) : s'.ResumeOk after := by
  cases after with
  | retry key draft => exact Frame.draftOk hs h
  | backOff key new => exact ⟨hf.dropped h.1, ((hs new rfl).owned h.2).1⟩
  | removed key x => exact hf.dropped h

theorem Frame.callerOk {caller : Caller Key} (h : s.CallerOk caller) : s'.CallerOk caller := by
  cases caller with
  | collect => trivial
  | remove key removed => exact fun x hx => hf.dropped (h x hx)

theorem Frame.gcOk (hm : Mem s) {pc : GcPc} (ho : KeepsOrder s s') (h : s.GcOk pc) :
    s'.GcOk pc := by
  cases pc with
  | sweepNext i prev x => exact ⟨hf.field h.1, hf.mem h.2⟩
  | sweepDeleted i prev x next =>
    exact ⟨hf.field h.1, hf.mem h.2.1, hf.successor hm h.2.1 h.2.2⟩
  | sweepExchange i prev x next =>
    exact ⟨hf.field h.1, hf.mem h.2.1, hf.successor hm h.2.1 h.2.2.1, hf.marked h.2.2.2⟩
  | orderNext prev x => exact ⟨hf.linked ho h.1, hf.linked ho h.2⟩
  | orderDeleted prev x next =>
    obtain ⟨hprev, hx, hnext⟩ := h
    exact ⟨hf.linked ho hprev, hf.linked ho hx, fun y hy => ho.next x (hx x rfl).1 y (hnext y hy)⟩
  | orderExchange prev x next =>
    obtain ⟨hprev, hx, hnext, hmark⟩ := h
    exact ⟨hf.linked ho hprev, hf.linked ho hx, ho.next x (hx x rfl).1 next hnext, hf.marked hmark⟩
  | orderReload prev => exact hf.linked ho h
  | stamp epoch rest => exact fun x hx => hf.mem (h x hx)
  | free safe rest kept => exact ⟨fun x hx => hf.mem (h.1 x hx), fun x hx => hf.mem (h.2 x hx)⟩
  | lock => trivial
  | drain => trivial
  | sweepHead i => trivial
  | orderHead => trivial
  | loadEpoch => trivial
  | loadSafe => trivial
  | unlock => trivial

theorem State.PcOk.frame (hm : Mem s) {pc : Pc Key Value}
    (hs : ∀ x, pc.own = some x → Spares s s' x) (ho : pc.collects = true → KeepsOrder s s')
    (h : s.PcOk pc) : s'.PcOk pc := by
  have howned : ∀ {key : Key} {new : ℕ}, pc.own = some new → s.Owned key new →
      s'.Owned key new := fun hown h => (hs _ hown).keepsOwned hf h
  have hready : ∀ {key : Key} {new : ℕ}, pc.own = some new →
      s.Owned key new ∧ s.NoOlder key new → s'.Owned key new ∧ s'.NoOlder key new :=
    fun hown h => ⟨howned hown h.1, hf.noOlder hm h.1.1 h.2⟩
  have hgone : ∀ {key : Key} {new : ℕ}, pc.own = some new →
      s.Dropped key new ∧ new ∉ s.appended → s'.Dropped key new ∧ new ∉ s'.appended :=
    fun hown h => ⟨hf.dropped h.1, ((hs _ hown).owned h.2).1⟩
  cases pc with
  | idle reply => trivial
  | loadHead op key =>
    cases op with
    | search draft => exact Frame.draftOk hs h
    | scan new => exact h.elim
    | find => trivial
    | remove => trivial
  | loadDeleted op key x =>
    cases op with
    | search draft => exact ⟨Frame.draftOk hs h.1, hf.mem h.2.1, hf.keyed h.2.2⟩
    | scan new =>
      obtain ⟨hown, hx, hkey, hahead⟩ := h
      exact ⟨howned rfl hown, hf.mem hx, hf.keyed hkey,
        hf.ahead hm hown.1 (hkey.inBucket hx) hahead⟩
    | find => exact ⟨hf.mem h.1, hf.keyed h.2⟩
    | remove => exact h.elim
  | loadNext op key x =>
    cases op with
    | search draft => exact ⟨Frame.draftOk hs h.1, hf.inBucket h.2⟩
    | scan new =>
      obtain ⟨hown, hx, hahead, hmark⟩ := h
      exact ⟨howned rfl hown, hf.inBucket hx, hf.ahead hm hown.1 hx hahead,
        fun hz => hf.marked (hmark (hf.older hm hown.1 hz))⟩
    | find => exact hf.inBucket h
    | remove => exact hf.inBucket h
  | construct key value => trivial
  | loadOldHead key new => exact (hs new rfl).keepsPending h
  | storeNext key new oldHead => exact (hs new rfl).keepsPending h
  | publish key new oldHead =>
    obtain ⟨hnew, hnext⟩ := h
    refine ⟨(hs new rfl).keepsPending hnew, ?_⟩
    rw [Map.bucketNext_congr ((hs new rfl).pending hnew.1).2]
    exact hnext
  | giveUp key new => exact howned rfl h
  | mark key x => exact ⟨hf.mem h.1, hf.keyed h.2⟩
  | unlinkHead after node => exact ⟨hf.resumeOk hs h.1, hf.mem h.2.1, hf.marked h.2.2⟩
  | unlinkStep after node y =>
    exact ⟨hf.resumeOk hs h.1, hf.mem h.2.1, hf.marked h.2.2.1, hf.mem h.2.2.2⟩
  | unlinkNext after node prev =>
    exact ⟨hf.resumeOk hs h.1, hf.mem h.2.1, hf.marked h.2.2.1, hf.field h.2.2.2⟩
  | unlinkExchange after node prev next =>
    obtain ⟨hafter, hnode, hmark, hprev, hnext⟩ := h
    exact ⟨hf.resumeOk hs hafter, hf.mem hnode, hf.marked hmark, hf.field hprev,
      hf.successor hm hnode hnext⟩
  | loadStaging key new live =>
    cases live with
    | true => exact hready rfl h
    | false => exact hgone rfl h
  | exchangeStaging key new live head =>
    cases live with
    | true => exact hready rfl h
    | false => exact hgone rfl h
  | resetOrder key new => exact hready rfl h
  | loadTail key new => exact hready rfl h
  | exchangeHead key new => exact hready rfl h
  | initTail key new => exact ⟨hf.memAppended h.1, hf.keyed h.2⟩
  | loadOrderNext key new tail => exact ⟨hready rfl h.1, hf.reached h.2⟩
  | reloadTail key new tail next =>
    exact ⟨hready rfl h.1, hf.reached h.2.1, fun y hy => hf.behind (h.2.2 y hy)⟩
  | helpTail key new tail next => exact ⟨hready rfl h.1, hf.behind h.2⟩
  | append key new tail => exact ⟨hready rfl h.1, hf.reached h.2⟩
  | advanceTail key new tail => exact ⟨⟨hf.memAppended h.1.1, hf.keyed h.1.2⟩, hf.behind h.2⟩
  | postMutate key removed =>
    have hcaller : s.CallerOk (.remove key removed) := h
    exact hf.callerOk hcaller
  | gc caller pc =>
    refine ⟨hf.callerOk h.1, ?_⟩
    cases pc with
    | lock => trivial
    | _ => exact hf.gcOk hm (ho rfl) h.2

end

end Kept

end Equilibrium.LockFreeOrderedHashMap
