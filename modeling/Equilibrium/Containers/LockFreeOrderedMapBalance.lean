import Equilibrium.Containers.LockFreeOrderedMapLedger
import Mathlib.Data.Fintype.Option

/-! The insertions of a key that returned `true`, less the removals, are the undeleted
nodes of the key whenever no call is under way, if no insertion ever backed off from a
node that a removal had already marked. -/

namespace Equilibrium.LockFreeOrderedHashMap

open Library.Interleaving Library.LinkedChain List Prod

variable {Thread Key Value : Type}

def LiveNodes (m : Map Key Value) (key : Key) (l : List ℕ) : Prop :=
  l.Nodup ∧ ∀ x, x ∈ l ↔
    (∃ b, Reach m.bucketNext (m.buckets b) x) ∧ m.Undeleted x ∧ m.Keyed key x

/-- Every key has as many undeleted nodes as `insert` has returned `true` for it more often
than `remove`, and at most one. -/
def Balanced [DecidableEq Key] (s : State Thread Key Value) : Prop :=
  ∀ key, ∃ l, LiveNodes s.map key l ∧ l.length ≤ 1 ∧
    (s.inserted.countP fun p => p.1 = key) = (s.removed.countP fun p => p.1 = key) + l.length

/-- An insertion that is about to back off finds its node unmarked. -/
def BacksOffUnmarked (s : State Thread Key Value) (a : Act Thread Key Value) : Prop :=
  ∀ t key x, a.thread = some t → s.thread t = .giveUp key x → ¬ s.map.Marked x

variable [Hashable Key] [DecidableEq Key] {s s' : State Thread Key Value}

omit [Hashable Key] in
/-- Two lists of reports and of nodes with a key that have the same nodes. -/
theorem count_eq (key : Key) {reports : List (Key × ℕ)} {nodes : List ℕ} {m : Map Key Value}
    (hreports : (reports.map snd).Nodup) (hnodes : nodes.Nodup)
    (hkeyed : ∀ p ∈ reports, m.Keyed p.1 p.2)
    (hmem : ∀ x, x ∈ reports.map snd ↔ x ∈ nodes) :
    (reports.countP fun p => p.1 = key) = (nodes.filter (m.hasKey key)).length := by
  have hsub : ((reports.filter fun p => p.1 = key).map snd).Nodup :=
    hreports.sublist (List.Sublist.map _ filter_sublist)
  rw [countP_eq_length_filter, ← length_map snd]
  refine List.Perm.length_eq ((perm_ext_iff_of_nodup hsub (hnodes.filter _)).mpr fun x => ?_)
  rw [mem_filter, ← hmem, mem_map, mem_map]
  constructor
  · rintro ⟨p, hp, rfl⟩
    obtain ⟨hp, hkey⟩ := mem_filter.mp hp
    refine ⟨⟨p, hp, rfl⟩, Map.hasKey_eq_true.mpr ?_⟩
    rw [← of_decide_eq_true hkey]
    exact hkeyed p hp
  · rintro ⟨⟨p, hp, rfl⟩, hkey⟩
    have hpkey := (hkeyed p hp).unique (Map.hasKey_eq_true.mp hkey)
    exact ⟨p, mem_filter.mpr ⟨hp, decide_eq_true hpkey⟩, rfl⟩

omit [Hashable Key] [DecidableEq Key] in
theorem length_le_one {l : List ℕ} (hl : l.Nodup) (h : ∀ x ∈ l, ∀ y ∈ l, x = y) : l.length ≤ 1 := by
  cases l with
  | nil => exact Nat.zero_le 1
  | cons x l =>
    cases l with
    | nil => exact Nat.le_refl 1
    | cons y l =>
      have hxy := h x (by simp) y (by simp)
      exact absurd (hxy ▸ mem_cons_self) (nodup_cons.mp hl).1

theorem balanced (hi : Inv s) (hins : InsertLedger s) (hrem : RemoveLedger s)
    (hq : Quiescent s) : Balanced s := by
  have hown : ∀ t x, (s.thread t).own ≠ some x := by
    intro t x hx
    obtain ⟨reply, hreply⟩ := hq t
    rw [hreply] at hx
    cases hx
  have htaken : ∀ t p, (s.thread t).taken ≠ some p := by
    intro t p hp
    obtain ⟨reply, hreply⟩ := hq t
    rw [hreply] at hp
    cases hp
  have hinserted : ∀ x, x ∈ s.inserted.map snd ↔ x ∈ s.appended := by
    refine fun x => ⟨fun hx => ?_, fun hx => (hins.appended x hx).resolve_right ?_⟩
    · obtain ⟨p, hp, rfl⟩ := mem_map.mp hx
      exact (hins.counted p hp).1
    · rintro ⟨t, ht⟩
      exact hown t x ht
  have hremoved : ∀ x, x ∈ s.removed.map snd ↔ x ∈ s.appended.filter s.map.marked := by
    intro x
    rw [mem_filter, Map.marked_eq_true]
    refine ⟨fun hx => ?_, fun ⟨happ, hmark⟩ => ?_⟩
    · obtain ⟨p, hp, rfl⟩ := mem_map.mp hx
      obtain ⟨hdropped, hlasting⟩ := hrem.dropped p hp
      refine ⟨hlasting.resolve_right ?_, hdropped.2.2⟩
      rintro ⟨t, ht, -⟩
      exact hown t _ ht
    · rcases hrem.marked x hmark with (hx | ⟨t, p, hp, -⟩) | ⟨hno, -⟩
      · exact hx
      · exact absurd hp (htaken t p)
      · exact absurd happ hno
  intro key
  have hnodup := hi.order.nodup
  have hcountI := count_eq key hins.nodup hnodup (fun p hp => (hins.counted p hp).2.1)
    hinserted
  have hcountR := count_eq key hrem.nodup (hnodup.filter _)
    (fun p hp => (hrem.dropped p hp).1.2.1) hremoved
  refine ⟨(s.appended.filter (s.map.hasKey key)).filter fun x => !s.map.marked x, ⟨?_, ?_⟩, ?_, ?_⟩
  · exact (hnodup.filter _).filter _
  · intro x
    rw [mem_filter, mem_filter, Map.hasKey_eq_true]
    constructor
    · rintro ⟨⟨happ, hkey⟩, hmark⟩
      have hpub := hi.appended x happ
      have hlive := (undeleted_iff (hi.node x hpub)).mp hmark
      exact ⟨⟨_, (hi.buckets.head _).reach x (hkey.inBucket hpub) hlive (rank_lt hpub)⟩, hlive, hkey⟩
    · rintro ⟨⟨b, hb⟩, hlive, hkey⟩
      have hpub := (hb.lower (hi.buckets.descends b) (hi.buckets.head b).below).1.1
      exact ⟨⟨hi.appended_of_undeleted hq hpub hlive, hkey⟩,
        (undeleted_iff (hi.node x hpub)).mpr hlive⟩
  · have hunique : ∀ x ∈ (s.appended.filter (s.map.hasKey key)).filter fun x => !s.map.marked x,
        ∀ y ∈ (s.appended.filter (s.map.hasKey key)).filter fun x => !s.map.marked x, x = y := by
      intro x hx y hy
      simp only [mem_filter, Map.hasKey_eq_true] at hx hy
      obtain ⟨⟨hx, hxkey⟩, hxmark⟩ := hx
      obtain ⟨⟨hy, hykey⟩, hymark⟩ := hy
      exact hi.live_unique hx hy hxkey hykey
        ((undeleted_iff (hi.node x (hi.appended x hx))).mp hxmark)
        ((undeleted_iff (hi.node y (hi.appended y hy))).mp hymark)
    exact length_le_one ((hnodup.filter _).filter _) hunique
  · rw [hcountI, hcountR, filter_comm]
    exact length_eq_length_filter_add _

section Runs

variable [DecidableEq Thread] {count : ℕ}

theorem insertLedger_next {a : Act Thread Key Value} (hi : Inv s) (hl : InsertLedger s)
    (h : step s a = some s') : InsertLedger s' := by
  rcases step_moves hi h with ⟨t, pc', -, hmoves⟩ | ⟨-, rfl⟩
  · exact hl.moves hi hmoves
  · exact ⟨hl.nodup, hl.counted, hl.appended⟩

theorem removeLedger_next {a : Act Thread Key Value} (hi : Inv s) (hl : RemoveLedger s)
    (h : step s a = some s') (hguard : BacksOffUnmarked s a) : RemoveLedger s' := by
  rcases step_moves hi h with ⟨t, pc', ha, hmoves⟩ | ⟨-, rfl⟩
  · exact hl.moves hi ha h hmoves fun key x hpc => hguard t key x ha hpc
  · exact ⟨hl.nodup, hl.dropped, hl.taken, hl.taker, hl.marked⟩

/-- If no insertion backs off from a node that is already marked, the counts of every key
agree with the map whenever no call is under way. -/
theorem balanced_of_unmarked (e : Execution (machine Thread Key Value count))
    (hguard : ∀ i a, e.act i = some a → BacksOffUnmarked (e.state i) a) (i : ℕ)
    (hq : Quiescent (e.state i)) : Balanced (e.state i) := by
  have hledger : ∀ i, InsertLedger (e.state i) ∧ RemoveLedger (e.state i) := by
    intro i
    induction i with
    | zero =>
      rw [e.start]
      exact ⟨⟨nodup_nil, fun p hp => absurd hp not_mem_nil,
        fun x hx => absurd hx not_mem_nil⟩, nodup_nil,
        fun p hp => absurd hp not_mem_nil, fun t p hp => absurd hp nofun,
        fun t u p q hp => absurd hp nofun, fun x ⟨n, hn, _⟩ => absurd hn nofun⟩
    | succ i ih =>
      rcases e.next_cases i with heq | ⟨a, ha, hs⟩
      · exact heq ▸ ih
      · exact ⟨insertLedger_next (inv_state e i) ih.1 hs,
          removeLedger_next (inv_state e i) ih.2 hs (hguard i a ha)⟩
  exact balanced (inv_state e i) (hledger i).1 (hledger i).2 hq

end Runs

/-- The node of an insertion that is about to back off is unmarked. -/
def Pc.backOffFree (m : Map Key Value) : Pc Key Value → Bool
  | .giveUp _ x => !m.marked x
  | _ => true

section

omit [Hashable Key] [DecidableEq Key]

theorem backsOffUnmarked_of_free (h : ∀ t, (s.thread t).backOffFree s.map = true)
    (a : Act Thread Key Value) : BacksOffUnmarked s a := by
  intro t key x _ hpc hmark
  have hfree := h t
  rw [hpc, Pc.backOffFree, Map.marked_eq_true.mpr hmark] at hfree
  cases hfree

theorem quiescent_of_idles (h : ∀ t, (s.thread t).idles = true) : Quiescent s := by
  intro t
  have ht := h t
  cases hpc : s.thread t with
  | idle reply => exact ⟨reply, rfl⟩
  | _ =>
    rw [hpc] at ht
    cases ht

end

/-- Two threads insert a key at once, and the second one backs off. -/
def backOffRun : List (Act Bool ℕ ℕ) :=
  .insert true 5 11 :: List.replicate 2 (.access true false) ++
    .insert false 5 10 :: List.replicate 5 (.access false false) ++
    List.replicate 11 (.access true false) ++ List.replicate 7 (.access false false)

theorem backOffRun_runs :
    ((machine Bool ℕ ℕ 1).run (machine Bool ℕ ℕ 1).init backOffRun).isSome := by
  decide +kernel

def backOff : Execution (machine Bool ℕ ℕ 1) := .ofRun backOffRun backOffRun_runs

theorem balanced_backOff : Balanced (backOff.state 27) := by
  refine balanced_of_unmarked backOff (fun i a ha => backsOffUnmarked_of_free ?_ a) 27
    (quiescent_of_idles (by decide +kernel))
  have hfree : ∀ i < 27, ∀ t,
      ((backOff.state i).thread t).backOffFree (backOff.state i).map = true := by
    decide +kernel
  have hi : i < backOffRun.length := (List.getElem?_eq_some_iff.mp ha).1
  exact hfree i hi

/-- A removal marks the node of the second insertion before that one backs off from it. -/
def lostRemovalRun : List (Act (Option Bool) ℕ ℕ) :=
  .insert (some true) 5 11 :: List.replicate 2 (.access (some true) false) ++
    .insert (some false) 5 10 :: List.replicate 5 (.access (some false) false) ++
    List.replicate 5 (.access (some true) false) ++
    .remove none 5 :: List.replicate 6 (.access none false) ++
    List.replicate 5 (.access (some true) false) ++ List.replicate 7 (.access (some false) false)

theorem lostRemovalRun_runs : ((machine (Option Bool) ℕ ℕ 1).run (machine (Option Bool) ℕ ℕ 1).init
      lostRemovalRun).isSome := by
  decide +kernel

def lostRemoval : Execution (machine (Option Bool) ℕ ℕ 1) :=
  .ofRun lostRemovalRun lostRemovalRun_runs

theorem lostRemoval_quiescent : Quiescent (lostRemoval.state 33) :=
  quiescent_of_idles (by decide +kernel)

/-- One insertion and one removal have returned `true`, and the node of the insertion is
still in the map. -/
theorem lost_removal_not_balanced : ¬ ∀ (e : Execution (machine (Option Bool) ℕ ℕ 1)) (i : ℕ),
      Quiescent (e.state i) → Balanced (e.state i) := by
  intro hall
  obtain ⟨l, hl, -, hcount⟩ := hall lostRemoval 33 lostRemoval_quiescent 5
  have hinserted : ((lostRemoval.state 33).inserted.countP fun p => p.1 = 5) = 1 := by
    decide +kernel
  have hremoved : ((lostRemoval.state 33).removed.countP fun p => p.1 = 5) = 1 := by
    decide +kernel
  have hempty : l = [] := length_eq_zero_iff.mp (by omega)
  have hhead : (lostRemoval.state 33).map.buckets 0 = some 1 := by decide +kernel
  have hnode : ∃ n, (lostRemoval.state 33).map.nodes 1 = some n :=
    Option.isSome_iff_exists.mp (by decide +kernel)
  have hmem : 1 ∈ l := (hl.2 1).mpr ⟨⟨0, hhead ▸ .here 1⟩,
    (undeleted_iff hnode).mp (by decide +kernel), Map.hasKey_eq_true.mp (by decide +kernel)⟩
  rw [hempty] at hmem
  cases hmem

end Equilibrium.LockFreeOrderedHashMap
