import Equilibrium.Containers.LockFreeOrderedMapEffects

/-! What an access of `insert`, `remove` or `find` does: its effect on the memory, where the
thread comes to, and what it reports. -/

namespace Equilibrium.LockFreeOrderedHashMap

open Library.Interleaving Library.LinkedChain List

variable {Thread Key Value : Type}

theorem visit_holds [DecidableEq Key] (m : Map Key Value) (op : Walk Value) (key : Key)
    (p : Option ℕ) : (visit m op key p).holds = (op.own, none, false, false, false) := by
  cases p with
  | none =>
    cases op with
    | search draft => cases draft <;> rfl
    | scan new => rfl
    | find => rfl
    | remove => rfl
  | some x =>
    cases op <;> simp only [visit] <;> split <;> rfl

theorem resume_holds (after : Resume Key Value) :
    (resume after).holds = (after.own, after.taken, after.backsOff, false, false) := by
  cases after with
  | retry key draft => cases draft <;> rfl
  | backOff key new => rfl
  | removed key x => rfl

theorem unlinkVisit_holds (after : Resume Key Value) (node : ℕ) (prev : Link) (p : Option ℕ) :
    (unlinkVisit after node prev p).holds =
      (after.own, after.taken, after.backsOff, false, false) := by
  cases p with
  | none => exact resume_holds after
  | some y =>
    rw [unlinkVisit]
    split <;> rfl

theorem sweepVisit_holds (caller : Caller Key) (i : ℕ) (prev : Link) (p : Option ℕ) :
    (Pc.gc caller (sweepVisit i prev p) : Pc Key Value).holds =
      (none, caller.taken, false, true, false) := by
  cases p <;> rfl

theorem orderVisit_holds (caller : Caller Key) (prev p : Option ℕ) :
    (Pc.gc caller (orderVisit prev p) : Pc Key Value).holds =
      (none, caller.taken, false, true, false) := by
  cases p <;> rfl

/-- How a step carries a call on. -/
inductive Course (s s' : State Thread Key Value) (pc pc' : Pc Key Value) : Prop where
  | keep (htask : pc'.task = pc.task) (harg : pc'.argument = pc.argument)
  | construct (key : Key) (value : Value) (h : pc = .construct key value)
      (h' : pc' = .loadOldHead key s.map.allocated) (hmap : s'.map = s.map.newNode key value)
  | returns (reply : Reply Value) (h : pc' = .idle reply)
  | begins (reply : Reply Value) (h : pc = .idle reply)

theorem visit_course [DecidableEq Key] {s s' : State Thread Key Value} {pc : Pc Key Value}
    (m : Map Key Value) (op : Walk Value) (key : Key) (p : Option ℕ)
    (htask : pc.task = some (op.task key)) (harg : pc.argument = op.argument key) :
    Course s s' pc (visit m op key p) := by
  cases p with
  | none =>
    cases op with
    | search draft => cases draft <;> exact .keep htask.symm harg.symm
    | scan new => exact .keep htask.symm harg.symm
    | find => exact .returns _ rfl
    | remove => exact .keep htask.symm harg.symm
  | some x =>
    refine .keep ?_ ?_
    · rw [htask]
      cases op <;> simp only [visit] <;> split <;> rfl
    · rw [harg]
      cases op <;> simp only [visit] <;> split <;> rfl

theorem resume_course {s s' : State Thread Key Value} {pc : Pc Key Value}
    (after : Resume Key Value) (htask : pc.task = some after.task)
    (harg : pc.argument = after.argument) : Course s s' pc (resume after) := by
  refine .keep ?_ ?_
  · rw [htask]
    cases after <;> rfl
  · rw [harg]
    cases after <;> rfl

theorem unlinkVisit_course {s s' : State Thread Key Value} {pc : Pc Key Value}
    (after : Resume Key Value) (node : ℕ) (prev : Link) (p : Option ℕ)
    (htask : pc.task = some after.task) (harg : pc.argument = after.argument) :
    Course s s' pc (unlinkVisit after node prev p) := by
  cases p with
  | none => exact resume_course after htask harg
  | some y =>
    rw [unlinkVisit]
    split <;> exact .keep htask.symm harg.symm

variable [Hashable Key]

section Places

variable {s : State Thread Key Value}

variable {p : Option ℕ}

theorem search_visit [DecidableEq Key] {draft : Draft Value} {key : Key} (hd : s.DraftOk key draft)
    (hp : ∀ x, p = some x → In s.map s.published (s.map.hashKey key) x) :
    s.PcOk (visit s.map (.search draft) key p) := by
  cases p with
  | none =>
    cases draft with
    | value v => trivial
    | node new => exact hd
  | some x =>
    simp only [visit]
    split
    · exact ⟨hd, (hp x rfl).1, Map.hasKey_eq_true.mp ‹_›⟩
    · exact ⟨hd, hp x rfl⟩

theorem scan_visit [DecidableEq Key] {new : ℕ} {key : Key} (hnew : s.Owned key new)
    (hp : ∀ x, p = some x → In s.map s.published (s.map.hashKey key) x)
    (hahead : ∀ z, s.Older key new z → s.map.Undeleted z → Reach s.map.bucketNext p z) :
    s.PcOk (visit s.map (.scan new) key p) := by
  cases p with
  | none => exact ⟨hnew, fun z hz hlive => not_reach_none (hahead z hz hlive)⟩
  | some x =>
    simp only [visit]
    split
    · exact ⟨hnew, (hp x rfl).1, Map.hasKey_eq_true.mp ‹_›, hahead⟩
    · exact ⟨hnew, hp x rfl, hahead, fun hx => absurd (Map.hasKey_eq_true.mpr hx.2.1) ‹_›⟩

section

variable {key : Key} (hp : ∀ x, p = some x → In s.map s.published (s.map.hashKey key) x)
include hp

theorem find_visit [DecidableEq Key] : s.PcOk (visit s.map .find key p) := by
  cases p with
  | none => trivial
  | some x =>
    simp only [visit]
    split
    · exact ⟨(hp x rfl).1, Map.hasKey_eq_true.mp ‹_›⟩
    · exact hp x rfl

theorem remove_visit [DecidableEq Key] : s.PcOk (visit s.map .remove key p) := by
  cases p with
  | none => exact fun x hx => absurd hx nofun
  | some x =>
    simp only [visit]
    split
    · exact ⟨(hp x rfl).1, Map.hasKey_eq_true.mp ‹_›⟩
    · exact hp x rfl

end

theorem resume_ok {after : Resume Key Value} (h : s.ResumeOk after) : s.PcOk (resume after) := by
  cases after with
  | retry key draft => exact h
  | backOff key new => exact h
  | removed key x =>
    intro y hy
    cases hy
    exact h

theorem unlinkVisit_ok {after : Resume Key Value} {node : ℕ} {prev : Link} (h : s.ResumeOk after)
    (hnode : node ∈ s.published) (hmark : s.map.Marked node) (hprev : s.Field prev)
    (hp : ∀ y, p = some y → y ∈ s.published) : s.PcOk (unlinkVisit after node prev p) := by
  cases p with
  | none => exact resume_ok h
  | some y =>
    rw [unlinkVisit]
    split
    · exact ⟨h, hnode, hmark, hprev⟩
    · exact ⟨h, hnode, hmark, hp y rfl⟩

theorem sweepVisit_ok {i : ℕ} {prev : Link} (hprev : s.Field prev)
    (hp : ∀ y, p = some y → y ∈ s.published) : s.GcOk (sweepVisit i prev p) := by
  cases p with
  | none => trivial
  | some y => exact ⟨hprev, hp y rfl⟩

theorem orderVisit_ok {prev : Option ℕ} (hprev : s.Linked prev) (hp : s.Linked p) :
    s.GcOk (orderVisit prev p) := by
  cases p with
  | none => trivial
  | some y => exact ⟨hprev, hp⟩

end Places

/-- The node that a thread inserts: it goes on with it, leaves it, or has a new one. -/
inductive OwnStep (s s' : State Thread Key Value) : Option ℕ → Option ℕ → Prop where
  | keep (own : Option ℕ) : OwnStep s s' own own
  | leave (own : Option ℕ)
      (h : ∀ x, own = some x → x ∉ s'.published ∨ s'.map.Marked x ∨ x ∈ s'.appended) :
    OwnStep s s' own none
  | make : OwnStep s s' none (some s.map.allocated)

inductive MutexStep (t : Thread) : Option Thread → Option Thread → Bool → Bool → Prop where
  | keep (m : Option Thread) (collects : Bool) : MutexStep t m m collects collects
  | lock : MutexStep t none (some t) false true
  | unlock (m : Option Thread) : MutexStep t m none true false

/-- What the calls have returned, and what a removal has marked without having returned. -/
inductive Report (s s' : State Thread Key Value) (pc pc' : Pc Key Value) : Prop where
  | quiet (hi : s'.inserted = s.inserted) (hr : s'.removed = s.removed)
      (ht : pc'.taken = pc.taken) (hpc' : pc'.succeeded = false)
      (hown : pc.own = pc'.own ∨ ∀ x, pc.own = some x →
        x ∉ s.appended ∧ (x ∉ s.published ∨ pc.backsOff = true))
  | took (key : Key) (x : ℕ) (hpc : pc = .mark key x) (hi : s'.inserted = s.inserted)
      (hr : s'.removed = s.removed) (ht : pc'.taken = some (key, x)) (hlive : ¬ s.map.Marked x)
      (hmark : s'.map.Marked x)
  | inserted (key : Key) (x : ℕ) (hown : pc.own = some x) (hpc' : pc' = .idle .inserted)
      (hx : x ∈ s.appended) (hkey : s.map.Keyed key x)
      (hi : s'.inserted = s.inserted ++ [(key, x)]) (hr : s'.removed = s.removed)
      (ht : pc.taken = none)
  | removed (key : Key) (x : ℕ) (hi : s'.inserted = s.inserted)
      (hr : s'.removed = s.removed ++ [(key, x)]) (ht : pc.taken = some (key, x))
      (hpc' : pc' = .idle .removed) (hown : pc.own = none)

/-- A step of the thread `t` from `pc` to `pc'`. -/
structure Moves (s s' : State Thread Key Value) (t : Thread) (pc pc' : Pc Key Value)
    [DecidableEq Thread] : Prop where
  thread : s'.thread = Function.update s.thread t pc'
  effect : Effect s pc s'.map s'.published s'.appended
  placed : s'.PcOk pc'
  own : OwnStep s s' pc.own pc'.own
  backsOff : pc'.backsOff = pc.backsOff ∨ pc'.own = none ∨
    ∃ key x, pc = .giveUp key x ∧ pc'.backsOff = true
  mutex : MutexStep t s.gcMutex s'.gcMutex pc.collects pc'.collects
  report : Report s s' pc pc'
  course : Course s s' pc pc'

section Steps

variable [DecidableEq Thread] {s s' : State Thread Key Value} {t : Thread} {pc pc' : Pc Key Value}

omit [Hashable Key] in
theorem holds_eq {own : Option ℕ} {taken : Option (Key × ℕ)} {backsOff collects succeeded : Bool}
    (h : pc.holds = (own, taken, backsOff, collects, succeeded)) : pc.own = own ∧
      pc.taken = taken ∧ pc.backsOff = backsOff ∧ pc.collects = collects ∧
      pc.succeeded = succeeded := by
  simpa [Pc.holds] using h

theorem moves_of_holds (hthread : s'.thread = Function.update s.thread t pc')
    (heffect : Effect s pc s'.map s'.published s'.appended) (hok : s'.PcOk pc')
    (hholds : pc'.holds = (pc.own, pc.taken, pc.backsOff, pc.collects, false))
    (hmutex : s'.gcMutex = s.gcMutex) (hi : s'.inserted = s.inserted)
    (hr : s'.removed = s.removed) (hcourse : Course s s' pc pc') : Moves s s' t pc pc' := by
  obtain ⟨hown, htaken, hbacks, hcollects, hsucceeded⟩ := holds_eq hholds
  refine ⟨hthread, heffect, hok, ?_, .inl hbacks, ?_,
    .quiet hi hr htaken hsucceeded (.inl hown.symm), hcourse⟩
  · rw [hown]
    exact .keep _
  · rw [hcollects, hmutex]
    exact .keep _ _

theorem moves_of_leave {reply : Reply Value}
    (hthread : s'.thread = Function.update s.thread t (.idle reply))
    (heffect : Effect s pc s'.map s'.published s'.appended) (htaken : pc.taken = none)
    (hcollects : pc.collects = false) (hreply : (Pc.idle reply : Pc Key Value).succeeded = false)
    (hleave : ∀ x, pc.own = some x → x ∉ s.appended ∧ (x ∉ s.published ∨ pc.backsOff = true) ∧
      (x ∉ s'.published ∨ s'.map.Marked x))
    (hmutex : s'.gcMutex = s.gcMutex) (hi : s'.inserted = s.inserted)
    (hr : s'.removed = s.removed) : Moves s s' t pc (.idle reply) := by
  refine ⟨hthread, heffect, trivial, ?_, .inr (.inl rfl), ?_,
    .quiet hi hr htaken.symm hreply (.inr fun x hx => ⟨(hleave x hx).1, (hleave x hx).2.1⟩),
    .returns reply rfl⟩
  · exact .leave _ fun x hx => (hleave x hx).2.2.imp_right .inl
  · rw [hcollects, hmutex]
    exact .keep _ false

theorem moves_of_insert {key : Key} {x : ℕ}
    (hthread : s'.thread = Function.update s.thread t (.idle .inserted))
    (heffect : Effect s pc s'.map s'.published s'.appended)
    (hpc : pc.holds = (some x, none, false, false, false)) (hx : x ∈ s.appended)
    (hx' : x ∈ s'.appended) (hkey : s.map.Keyed key x) (hmutex : s'.gcMutex = s.gcMutex)
    (hi : s'.inserted = s.inserted ++ [(key, x)]) (hr : s'.removed = s.removed) :
    Moves s s' t pc (.idle .inserted) := by
  obtain ⟨hown, htaken, hbacks, hcollects, -⟩ := holds_eq hpc
  refine ⟨hthread, heffect, trivial, ?_, .inr (.inl rfl), ?_,
    .inserted key x hown rfl hx hkey hi hr htaken, .returns _ rfl⟩
  · rw [hown]
    exact .leave _ fun y hy => .inr (.inr (Option.some.inj hy ▸ hx'))
  · rw [hcollects, hmutex]
    exact .keep _ false

theorem moves_goto (hok : s.PcOk pc')
    (hholds : pc'.holds = (pc.own, pc.taken, pc.backsOff, pc.collects, false))
    (hcourse : Course s (s.goto t pc') pc pc') : Moves s (s.goto t pc') t pc pc' :=
  moves_of_holds rfl .read hok hholds rfl rfl rfl hcourse

theorem exists_goto (pc' : Pc Key Value) (hok : s.PcOk pc')
    (hholds : pc'.holds = (pc.own, pc.taken, pc.backsOff, pc.collects, false))
    (hcourse : Course s (s.goto t pc') pc pc') : ∃ pc'', Moves s (s.goto t pc') t pc pc'' :=
  ⟨pc', moves_goto hok hholds hcourse⟩

section

omit [DecidableEq Thread]

theorem bucket_in (hm : Mem s) {b x : ℕ} (h : s.map.buckets b = some x) :
    In s.map s.published b x :=
  ((hm.buckets.head b).below x h).1

theorem next_in (hm : Mem s) {b x y : ℕ} (hx : In s.map s.published b x)
    (h : s.map.bucketNext x = some y) : In s.map s.published b y :=
  ((hm.buckets.next b x hx).below y h).1

theorem next_published (hm : Mem s) {x y : ℕ} (hx : x ∈ s.published)
    (h : s.map.bucketNext x = some y) : y ∈ s.published := by
  obtain ⟨n, hn⟩ := hm.node x hx
  exact (next_in hm ⟨hx, n, hn, rfl⟩ h).1

end

omit [Hashable Key] in
theorem marked_modify {m : Map Key Value} {x : ℕ} {n : Node Key Value}
    {f : Node Key Value → Node Key Value} (hn : m.nodes x = some n)
    (hf : (f n).isDeleted = true) : (m.modify x f).Marked x :=
  ⟨f n, by rw [Map.nodes_modify, hn]; simp, hf⟩

omit [Hashable Key] [DecidableEq Thread] in
theorem resumeOk_node {after : Resume Key Value} {x : ℕ} (h : s.ResumeOk after)
    (hx : after.own = some x) : ∃ n, s.map.nodes x = some n := by
  cases after with
  | retry key draft =>
    cases draft with
    | value v => cases hx
    | node new =>
      cases hx
      obtain ⟨-, v, p, hn⟩ := h
      exact ⟨_, hn⟩
  | backOff key new =>
    cases hx
    obtain ⟨⟨-, ⟨n, hn, -⟩, -⟩, -⟩ := h
    exact ⟨n, hn⟩
  | removed key y => cases hx

section

omit [DecidableEq Thread]

/-- What follows the tail of the order list is the last node. -/
theorem last_of_behind (hm : Mem s) {x y : ℕ} (htail : s.map.orderTail = some x)
    (h : s.Behind x y) : s.appended.getLast? = some y := by
  obtain ⟨hx, hy, hlt⟩ := h
  have htwo := (hm.order.tail x htail).2
  have hlow := lt_place hy
  exact last_of_place hy (by omega)

theorem effect_exchangeTail {expected : Option ℕ} {x : ℕ}
    (hlast : s.map.orderTail = expected → s.appended.getLast? = some x) :
    Effect s pc (s.map.exchangeTail expected (some x)) s.published s.appended := by
  rw [Map.exchangeTail]
  split
  · exact .setTail x (hlast ‹_›)
  · exact .read

end

section Accesses

/-! One access each: `hpc` says where the thread is. -/

variable [DecidableEq Key] {choice : Bool} {key : Key} {x new tail : ℕ} {next : Option ℕ}
  {after : Resume Key Value} {node : ℕ} {prev : Link} (hok : s.PcOk (s.thread t))
  (h : access s t choice = some s')

include hok h

theorem moves_loadHead {op : Walk Value} (hm : Mem s) (hpc : s.thread t = .loadHead op key) :
    ∃ pc', Moves s s' t (s.thread t) pc' := by
  simp only [access, hpc] at h
  rw [hpc] at hok ⊢
  cases h
  have hin := fun x (hx : s.map.buckets (s.map.hashKey key) = some x) => bucket_in hm hx
  refine exists_goto _ ?_ (visit_holds _ _ _ _) (visit_course _ _ _ _ rfl rfl)
  cases op with
  | search draft => exact search_visit hok hin
  | scan new => exact hok.elim
  | find => exact find_visit hin
  | remove => exact remove_visit hin

theorem moves_loadNext {op : Walk Value} (hm : Mem s) (hpc : s.thread t = .loadNext op key x) :
    ∃ pc', Moves s s' t (s.thread t) pc' := by
  simp only [access, hpc] at h
  rw [hpc] at hok ⊢
  cases h
  refine exists_goto _ ?_ (visit_holds _ _ _ _) (visit_course _ _ _ _ rfl rfl)
  cases op with
  | search draft => exact search_visit hok.1 fun y hy => next_in hm hok.2 hy
  | scan new =>
    obtain ⟨hnew, hx, hahead, hmark⟩ := hok
    refine scan_visit hnew (fun y hy => next_in hm hx hy) fun z hz hlive => ?_
    refine (reach_some.mp (hahead z hz hlive)).resolve_left ?_
    rintro rfl
    exact (hmark hz).not_undeleted hlive
  | find => exact find_visit fun y hy => next_in hm hok hy
  | remove => exact remove_visit fun y hy => next_in hm hok hy

theorem moves_search {draft : Draft Value} (hm : Mem s)
    (hpc : s.thread t = .loadDeleted (.search draft) key x) : ∃ pc', Moves s s' t (s.thread t) pc' := by
  simp only [access, hpc] at h
  rw [hpc] at hok ⊢
  obtain ⟨hdraft, hx, hkey⟩ := hok
  split at h
  · cases h
    exact exists_goto _ ⟨hdraft, hx, Map.marked_eq_true.mp ‹_›⟩ rfl (.keep rfl rfl)
  · cases h
    refine ⟨.idle .refused, ?_⟩
    cases draft with
    | value v =>
      exact moves_of_leave rfl .read rfl rfl rfl (fun y hy => absurd hy nofun) rfl rfl rfl
    | node new =>
      have hnew : s.Pending key new := hdraft
      refine moves_of_leave rfl (.discard key new rfl hnew) rfl rfl rfl (fun y hy => ?_) rfl rfl rfl
      cases hy
      exact ⟨fun happ => hnew.1 (hm.appended new happ), .inl hnew.1, .inl hnew.1⟩

theorem moves_scan (hpc : s.thread t = .loadDeleted (.scan new) key x) :
    ∃ pc', Moves s s' t (s.thread t) pc' := by
  simp only [access, hpc] at h
  rw [hpc] at hok ⊢
  obtain ⟨hnew, hx, hkey, hahead⟩ := hok
  split at h
  · cases h
    exact exists_goto _ ⟨hnew, hkey.inBucket hx, hahead, fun _ => Map.marked_eq_true.mp ‹_›⟩ rfl
      (.keep rfl rfl)
  · cases h
    exact exists_goto _ hnew rfl (.keep rfl rfl)

theorem moves_find (hpc : s.thread t = .loadDeleted .find key x) :
    ∃ pc', Moves s s' t (s.thread t) pc' := by
  simp only [access, hpc] at h
  rw [hpc] at hok ⊢
  split at h
  · cases h
    exact exists_goto _ (hok.2.inBucket hok.1) rfl (.keep rfl rfl)
  · obtain ⟨n, -, rfl⟩ := Option.map_eq_some_iff.mp h
    exact exists_goto _ trivial rfl (.returns _ rfl)

omit hok in
theorem moves_construct {value : Value} (hm : Mem s) (hpc : s.thread t = .construct key value) :
    ∃ pc', Moves s s' t (s.thread t) pc' := by
  simp only [access, hpc] at h
  rw [hpc]
  cases h
  refine ⟨_, rfl, .construct key value, ⟨fun hmem => ?_, value, none, by simp [Node.new]⟩, .make,
    .inl rfl, .keep _ false, .quiet rfl rfl rfl rfl (.inr fun x hx => absurd hx nofun),
    .construct key value rfl rfl rfl⟩
  obtain ⟨n, hn⟩ := hm.node _ hmem
  exact Nat.lt_irrefl _ (hm.bounded _ n hn)

theorem moves_storeNext {oldHead : Option ℕ} (hpc : s.thread t = .storeNext key new oldHead) :
    ∃ pc', Moves s s' t (s.thread t) pc' := by
  simp only [access, hpc] at h
  rw [hpc] at hok ⊢
  cases h
  obtain ⟨hnew, v, p, hn⟩ := hok
  refine ⟨_, moves_of_holds rfl (.storeNext key new oldHead rfl ⟨hnew, v, p, hn⟩) ?_ rfl rfl rfl rfl
    (.keep rfl rfl)⟩
  have hstored : (s.map.modify new fun n => { n with bucketNext := oldHead }).nodes new =
      some { Node.new key v with bucketNext := oldHead } := by
    rw [Map.nodes_modify, hn]
    simp
  exact ⟨⟨hnew, v, oldHead, hstored⟩, Map.bucketNext_node hstored⟩

theorem moves_publish {oldHead : Option ℕ} (hm : Mem s)
    (hpc : s.thread t = .publish key new oldHead) : ∃ pc', Moves s s' t (s.thread t) pc' := by
  simp only [access, hpc] at h
  rw [hpc] at hok ⊢
  obtain ⟨hnew, hnext⟩ := hok
  split at h
  · rename_i hcond
    obtain ⟨-, rfl⟩ := hcond
    cases h
    have heffect : Effect s (.publish key new (s.map.buckets (s.map.hashKey key)))
        (s.map.storeBucket (s.map.hashKey key) (some new)) (s.published ++ [new]) s.appended :=
      .publish key new rfl hnew hnext
    refine ⟨_, moves_of_holds rfl heffect ?_ rfl rfl rfl rfl (.keep rfl rfl)⟩
    set s' : State Thread Key Value := { s.goto t (.loadNext (.scan new) key new) with
      map := s.map.storeBucket (s.map.hashKey key) (some new)
      published := s.published ++ [new] }
    have hm' : Mem s' := (Effect.sound hm heffect : Sound s s' _).mem
    obtain ⟨hno, v, p, hn⟩ := hnew
    have hmem : new ∈ s'.published := mem_concat_self
    have hin : In s'.map s'.published (s'.map.hashKey key) new := ⟨hmem, _, hn, rfl⟩
    refine ⟨⟨hmem, fun happ => hno (hm.appended new happ), _, hn, rfl, rfl, rfl⟩, hin,
      fun z hz hlive => .there ?_, fun hz => absurd hz.2.2 (Int.lt_irrefl _)⟩
    exact (hm'.buckets.next _ new hin).reach z (hz.2.1.inBucket hz.1) hlive hz.2.2
  · cases h
    exact exists_goto _ hnew rfl (.keep rfl rfl)

theorem moves_giveUp (hpc : s.thread t = .giveUp key new) :
    ∃ pc', Moves s s' t (s.thread t) pc' := by
  simp only [access, hpc] at h
  rw [hpc] at hok ⊢
  cases h
  have hnew : s.Owned key new := hok
  obtain ⟨hmem, hno, n, hn, hkey, hnext, hswept⟩ := hok
  have hmark : (s.map.modify new fun n => { n with isDeleted := true, orderSwept := true }).Marked
      new := marked_modify hn rfl
  have hkeyed : (s.map.modify new fun n => { n with isDeleted := true, orderSwept := true }).Keyed
      key new := ⟨_, by rw [Map.nodes_modify, hn]; rfl, by simp [hkey]⟩
  exact ⟨_, rfl, .giveUp key new rfl hnew, ⟨⟨⟨hmem, hkeyed, hmark⟩, hno⟩, hmem, hmark⟩,
    .keep (some new), .inr (.inr ⟨key, new, rfl, rfl⟩), .keep _ false,
    .quiet rfl rfl rfl rfl (.inl rfl), .keep rfl rfl⟩

theorem moves_mark (hpc : s.thread t = .mark key x) : ∃ pc', Moves s s' t (s.thread t) pc' := by
  simp only [access, hpc] at h
  rw [hpc] at hok ⊢
  obtain ⟨hx, hkey⟩ := hok
  split at h
  · cases h
    exact exists_goto (.postMutate key none) (fun y hy => absurd hy nofun) rfl (.keep rfl rfl)
  · rename_i hlive
    split at h
    · cases h
      exact exists_goto (.loadHead .remove key) trivial rfl (.keep rfl rfl)
    · cases h
      have hlive' : ¬ s.map.Marked x := fun hmark => hlive (Map.marked_eq_true.mpr hmark)
      obtain ⟨n, hn, hnkey⟩ := hkey
      have hmark : (s.map.modify x fun n => { n with isDeleted := true }).Marked x :=
        marked_modify hn rfl
      have hkeyed : (s.map.modify x fun n => { n with isDeleted := true }).Keyed key x :=
        ⟨_, by rw [Map.nodes_modify, hn]; rfl, by simp [hnkey]⟩
      exact ⟨_, rfl, .mark key x rfl hx ⟨n, hn, hnkey⟩ hlive', ⟨⟨hx, hkeyed, hmark⟩, hx, hmark⟩,
        .keep none, .inl rfl, .keep _ false,
        .took key x rfl rfl rfl rfl hlive' hmark, .keep rfl rfl⟩

section

variable (hm : Mem s)
include hm

theorem moves_unlinkHead (hpc : s.thread t = .unlinkHead after node) :
    ∃ pc', Moves s s' t (s.thread t) pc' := by
  simp only [access, hpc] at h
  rw [hpc] at hok ⊢
  obtain ⟨hafter, hnode, hmark⟩ := hok
  obtain ⟨n, -, rfl⟩ := Option.map_eq_some_iff.mp h
  refine exists_goto _ (unlinkVisit_ok hafter hnode hmark (fun y hy => absurd hy nofun)
    fun y hy => ?_) (unlinkVisit_holds _ _ _ _) (unlinkVisit_course _ _ _ _ rfl rfl)
  exact (bucket_in hm hy).1

theorem moves_unlinkStep {y : ℕ} (hpc : s.thread t = .unlinkStep after node y) :
    ∃ pc', Moves s s' t (s.thread t) pc' := by
  simp only [access, hpc] at h
  rw [hpc] at hok ⊢
  cases h
  obtain ⟨hafter, hnode, hmark, hy⟩ := hok
  refine exists_goto _ (unlinkVisit_ok hafter hnode hmark (fun z hz => ?_)
    fun z hz => next_published hm hy hz) (unlinkVisit_holds _ _ _ _)
    (unlinkVisit_course _ _ _ _ rfl rfl)
  cases hz
  exact hy

theorem moves_unlinkExchange (hpc : s.thread t = .unlinkExchange after node prev next) :
    ∃ pc', Moves s s' t (s.thread t) pc' := by
  simp only [access, hpc] at h
  rw [hpc] at hok ⊢
  obtain ⟨hafter, hnode, hmark, hprev, hnext⟩ := hok
  split at h
  · cases h
    have hs : Spliceable s.map s.published prev node next := ⟨hmark, ‹_›, hprev, hnext⟩
    have hsound : Sound s { s.goto t (resume after) with map := s.map.storeLink prev next }
        (.idle .done) := .of_memory (sound_splice hm hnode hs)
    refine ⟨_, moves_of_holds rfl (.splice after prev node next rfl hnode hs) (resume_ok ?_)
      (resume_holds after) rfl rfl rfl (resume_course after rfl rfl)⟩
    exact hsound.frame.resumeOk (fun x hx => hsound.spares x (resumeOk_node hafter hx) nofun) hafter
  · cases h
    exact exists_goto _ (resume_ok hafter) (resume_holds after) (resume_course after rfl rfl)

theorem moves_exchangeStaging {live : Bool} {head : Option ℕ}
    (hpc : s.thread t = .exchangeStaging key new live head) :
    ∃ pc', Moves s s' t (s.thread t) pc' := by
  simp only [access, hpc] at h
  rw [hpc] at hok ⊢
  have hstage : new ∈ s.published → ∀ x ∈ new :: s.map.staging, x ∈ s.published :=
    fun hnew x hx => (mem_cons.mp hx).elim (fun h => h ▸ hnew) (hm.staging x)
  split at h
  · cases h
    cases live with
    | true =>
      obtain ⟨hnew, hno⟩ := hok
      exact ⟨.resetOrder key new, moves_of_holds rfl
        (.lists (new :: s.map.staging) s.map.allNodes (hstage hnew.1) hm.allNodes) ⟨hnew, hno⟩
        rfl rfl rfl rfl (.keep rfl rfl)⟩
    | false =>
      obtain ⟨hdropped, hno⟩ := hok
      refine ⟨.idle .refused, moves_of_leave rfl
        (.lists (new :: s.map.staging) s.map.allNodes (hstage hdropped.1) hm.allNodes) rfl rfl
        rfl (fun x hx => ?_) rfl rfl rfl⟩
      cases hx
      exact ⟨hno, .inr rfl, .inr hdropped.2.2⟩
  · cases h
    cases live <;> exact exists_goto _ hok rfl (.keep rfl rfl)

theorem moves_resetOrder (hpc : s.thread t = .resetOrder key new) :
    ∃ pc', Moves s s' t (s.thread t) pc' := by
  simp only [access, hpc] at h
  rw [hpc] at hok ⊢
  cases h
  obtain ⟨hnew, hno⟩ := hok
  have heffect : Effect s (.resetOrder key new)
      (s.map.modify new fun n => { n with orderNext := none }) s.published s.appended :=
    .reset key new rfl hnew
  refine ⟨_, moves_of_holds rfl heffect ?_ rfl rfl rfl rfl (.keep rfl rfl)⟩
  have hsound : Sound s { s.goto t (.loadTail key new) with
      map := s.map.modify new fun n => { n with orderNext := none } } (.resetOrder key new) :=
    Effect.sound hm heffect
  obtain ⟨hmem, happ, n, hn, hkey, -, hswept⟩ := hnew
  refine ⟨⟨hmem, happ, { n with orderNext := none }, ?_, hkey, rfl, hswept⟩,
    hsound.frame.noOlder hm hmem hno⟩
  rw [Map.nodes_modify, hn]
  simp

theorem moves_loadTail (hpc : s.thread t = .loadTail key new) :
    ∃ pc', Moves s s' t (s.thread t) pc' := by
  simp only [access, hpc] at h
  rw [hpc] at hok ⊢
  cases htail : s.map.orderTail with
  | none =>
    rw [htail] at h
    cases h
    exact exists_goto (.exchangeHead key new) hok rfl (.keep rfl rfl)
  | some tail =>
    rw [htail] at h
    cases h
    exact exists_goto (.loadOrderNext key new tail)
      ⟨hok, (hm.order.tail tail htail).1, tail, htail, Int.le_refl _⟩ rfl (.keep rfl rfl)

end

theorem moves_exchangeHead (hpc : s.thread t = .exchangeHead key new) :
    ∃ pc', Moves s s' t (s.thread t) pc' := by
  simp only [access, hpc] at h
  rw [hpc] at hok ⊢
  obtain ⟨hnew, hno⟩ := hok
  split at h
  · rename_i hcond
    cases h
    obtain ⟨n, hn, hkey, -⟩ := hnew.2.2
    exact ⟨_, moves_of_holds rfl (.first key new rfl hnew hno hcond.2)
      ⟨mem_concat_self, n, hn, hkey⟩ rfl rfl rfl rfl (.keep rfl rfl)⟩
  · cases h
    exact exists_goto (.loadTail key new) ⟨hnew, hno⟩ rfl (.keep rfl rfl)

theorem moves_initTail (hm : Mem s) (hpc : s.thread t = .initTail key new) :
    ∃ pc', Moves s s' t (s.thread t) pc' := by
  simp only [access, hpc] at h
  rw [hpc] at hok ⊢
  cases h
  obtain ⟨hnew, hkey⟩ := hok
  refine ⟨_, moves_of_insert rfl (effect_exchangeTail fun htail => ?_) rfl hnew hnew hkey rfl rfl
    rfl⟩
  have hle := hm.order.noTail htail
  obtain ⟨x, hx⟩ := length_eq_one_iff.mp
    (Nat.le_antisymm hle (length_pos_of_mem hnew))
  rw [hx] at hnew ⊢
  rw [mem_singleton.mp hnew]
  rfl

theorem moves_loadOrderNext (hm : Mem s) (hpc : s.thread t = .loadOrderNext key new tail) :
    ∃ pc', Moves s s' t (s.thread t) pc' := by
  simp only [access, hpc] at h
  rw [hpc] at hok ⊢
  cases h
  obtain ⟨hready, htail⟩ := hok
  refine exists_goto _ ⟨hready, htail, fun y hy => ?_⟩ rfl (.keep rfl rfl)
  obtain ⟨hmem, hlt⟩ := (hm.order.next tail htail.1).below y hy
  exact ⟨htail.1, hmem, hlt⟩

theorem moves_reloadTail (hpc : s.thread t = .reloadTail key new tail next) :
    ∃ pc', Moves s s' t (s.thread t) pc' := by
  simp only [access, hpc] at h
  rw [hpc] at hok ⊢
  obtain ⟨hready, htail, hnext⟩ := hok
  split at h
  · cases next with
    | none =>
      cases h
      exact exists_goto (.append key new tail) ⟨hready, htail⟩ rfl (.keep rfl rfl)
    | some next =>
      cases h
      exact exists_goto (.helpTail key new tail next) ⟨hready, hnext next rfl⟩ rfl (.keep rfl rfl)
  · cases h
    exact exists_goto (.loadTail key new) hready rfl (.keep rfl rfl)

theorem moves_helpTail {next : ℕ} (hm : Mem s) (hpc : s.thread t = .helpTail key new tail next) :
    ∃ pc', Moves s s' t (s.thread t) pc' := by
  simp only [access, hpc] at h
  rw [hpc] at hok ⊢
  cases h
  obtain ⟨⟨hnew, hno⟩, hbehind⟩ := hok
  have heffect : ∀ pc : Pc Key Value, Effect s pc
      (if choice then s.map else s.map.exchangeTail (some tail) (some next)) s.published
      s.appended := by
    intro pc
    split
    · exact .read
    · exact effect_exchangeTail fun htail => last_of_behind hm htail hbehind
  have hsound : Sound s { s.goto t (.loadTail key new) with
      map := if choice then s.map else s.map.exchangeTail (some tail) (some next) }
      (.idle .done) := Effect.sound hm (heffect _)
  have hspares := hsound.spares new (hm.node new hnew.1) nofun
  exact ⟨_, moves_of_holds rfl (heffect _) ⟨hspares.keepsOwned hsound.frame hnew,
    hsound.frame.noOlder hm hnew.1 hno⟩ rfl rfl rfl rfl (.keep rfl rfl)⟩

theorem moves_append (hpc : s.thread t = .append key new tail) :
    ∃ pc', Moves s s' t (s.thread t) pc' := by
  simp only [access, hpc] at h
  rw [hpc] at hok ⊢
  obtain ⟨⟨hnew, hno⟩, htail⟩ := hok
  split at h
  · rename_i hcond
    cases h
    obtain ⟨n, hn, hkey, -⟩ := hnew.2.2
    have hr : Retains s.map (s.map.modify tail fun n => { n with orderNext := some new }) :=
      retains_modify fun n => ⟨rfl, rfl, id⟩
    refine ⟨_, moves_of_holds rfl (.append key new tail rfl hnew hno htail hcond.2)
      ⟨⟨mem_concat_self, hr.keyed ⟨n, hn, hkey⟩⟩,
        mem_append_left _ htail.1, mem_concat_self, ?_⟩
      rfl rfl rfl rfl (.keep rfl rfl)⟩
    rw [place_new hnew.2.1, place_append htail.1]
    exact lt_place htail.1
  · cases h
    exact exists_goto (.loadTail key new) ⟨hnew, hno⟩ rfl (.keep rfl rfl)

theorem moves_advanceTail (hm : Mem s) (hpc : s.thread t = .advanceTail key new tail) :
    ∃ pc', Moves s s' t (s.thread t) pc' := by
  simp only [access, hpc] at h
  rw [hpc] at hok ⊢
  cases h
  obtain ⟨⟨hnew, hkey⟩, hbehind⟩ := hok
  exact ⟨_, moves_of_insert rfl (effect_exchangeTail fun htail => last_of_behind hm htail hbehind)
    rfl hnew hnew hkey rfl rfl rfl⟩

end Accesses

end Steps

end Equilibrium.LockFreeOrderedHashMap
