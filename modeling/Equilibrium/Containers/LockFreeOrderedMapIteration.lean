import Equilibrium.Containers.LockFreeOrderedMapInvariant
import Mathlib.Data.List.TakeWhile
import Mathlib.Data.Nat.Find

/-! `BucketIterator` over a map that no other thread changes. The constructor of the base
class skips marked nodes while `bucketIndex` is not set yet: what that member holds then
is an argument, `garbage`, and the constructor of the derived class stores the index of
the bucket over what the skip has made of it. -/

namespace Equilibrium.LockFreeOrderedHashMap

open Library.Interleaving Library.LinkedChain List

variable {Key Value : Type}

inductive Fault where
  | outOfRounds
  | nullNode
  | freedNode
  deriving DecidableEq, Repr

abbrev Traversal := Except Fault

/-- An access through a pointer to the node `x`. -/
def Map.fetch (m : Map Key Value) (x : ℕ) : Traversal (Node Key Value) :=
  match m.nodes x with
  | some n => if n.freed then .error .freedNode else .ok n
  | none => .error .freedNode

/-- An iterator over one map, without the guard it holds. -/
structure BucketIterator where
  currentNode : Option ℕ
  bucketIndex : ℕ
  deriving DecidableEq

namespace BucketIterator

/-- The loop of `advance_impl`, given the number of buckets after `bucketIndex`. -/
def nextBucket (m : Map Key Value) : ℕ → BucketIterator → BucketIterator
  | 0, it => it
  | buckets + 1, it =>
    match it.currentNode with
    | some _ => it
    | none => nextBucket m buckets ⟨m.buckets (it.bucketIndex + 1), it.bucketIndex + 1⟩

def advanceImpl (m : Map Key Value) (it : BucketIterator) : Traversal BucketIterator :=
  match it.currentNode with
  | none => .ok it
  | some x => do
    let n ← m.fetch x
    let it := nextBucket m (m.bucketCount - 1 - it.bucketIndex) ⟨n.bucketNext, it.bucketIndex⟩
    .ok (if it.currentNode = none then ⟨none, m.bucketCount⟩ else it)

/-- `skip_deleted` of the base class. -/
def skipDeleted (m : Map Key Value) : ℕ → BucketIterator → Traversal BucketIterator
  | 0, _ => .error .outOfRounds
  | rounds + 1, it =>
    match it.currentNode with
    | none => .ok it
    | some x => do
      let n ← m.fetch x
      if n.isDeleted then do
        let it ← it.advanceImpl m
        skipDeleted m rounds it
      else .ok it

/-- `BucketIterator(m, b_idx, start_node, announced)` -/
def construct (m : Map Key Value) (rounds garbage bIdx : ℕ) (startNode : Option ℕ) :
    Traversal BucketIterator := do
  let it ← skipDeleted m rounds ⟨startNode, garbage⟩
  .ok ⟨it.currentNode, bIdx⟩

/-- `end()` -/
def bucketEnd (m : Map Key Value) : BucketIterator := ⟨none, m.bucketCount⟩

/-- The loop of `begin` over the buckets that remain. -/
def beginLoop (m : Map Key Value) (rounds garbage : ℕ) : List ℕ → Traversal BucketIterator
  | [] => .ok (bucketEnd m)
  | i :: rest =>
    match m.buckets i with
    | some node => construct m rounds garbage i (some node)
    | none => beginLoop m rounds garbage rest

def bucketBegin (m : Map Key Value) (rounds garbage : ℕ) : Traversal BucketIterator :=
  beginLoop m rounds garbage (List.range m.bucketCount)

/-- `operator++` -/
def increment (m : Map Key Value) (rounds : ℕ) (it : BucketIterator) : Traversal BucketIterator :=
  match it.currentNode with
  | none => .ok it
  | some _ => do
    let it ← it.advanceImpl m
    skipDeleted m rounds it

/-- `operator*`, as the address of the node whose pair it designates. -/
def designated (m : Map Key Value) (it : BucketIterator) : Traversal ℕ :=
  match it.currentNode with
  | none => .error .nullNode
  | some x => do
    let _ ← m.fetch x
    .ok x

/-- The loop `for (; it != end(); ++it)`, with the nodes that `*it` designates. -/
def visitLoop (m : Map Key Value) : ℕ → BucketIterator → Traversal (List ℕ)
  | 0, _ => .error .outOfRounds
  | rounds + 1, it =>
    if it = bucketEnd m then .ok []
    else do
      let node ← it.designated m
      let it ← it.increment m rounds
      let rest ← visitLoop m rounds it
      .ok (node :: rest)

def visit (m : Map Key Value) (rounds garbage : ℕ) : Traversal (List ℕ) := do
  let it ← bucketBegin m rounds garbage
  visitLoop m rounds it

variable {m : Map Key Value} {chain : ℕ → List ℕ} {it it' : BucketIterator} {r : List ℕ}

theorem fetch_eq_ok {x : ℕ} {n : Node Key Value} :
    m.fetch x = .ok n ↔ m.nodes x = some n ∧ n.freed = false := by
  cases hn : m.nodes x with
  | none =>
    have hfetch : m.fetch x = .error .freedNode := by rw [Map.fetch, hn]
    rw [hfetch]
    exact iff_of_false nofun nofun
  | some n' =>
    have hfetch : m.fetch x = if n'.freed then .error .freedNode else .ok n' := by
      rw [Map.fetch, hn]
    rw [hfetch]
    constructor
    · intro h
      split at h
      · cases h
      · rename_i hfreed
        cases h
        exact ⟨rfl, Bool.eq_false_iff.mpr hfreed⟩
    · rintro ⟨h, hfreed⟩
      cases h
      rw [hfreed]
      rfl

theorem fetch_fields {x : ℕ} {n : Node Key Value} (h : m.fetch x = .ok n) :
    m.Held x ∧ m.bucketNext x = n.bucketNext ∧ m.marked x = n.isDeleted := by
  obtain ⟨hn, hfreed⟩ := fetch_eq_ok.mp h
  refine ⟨⟨n, hn, hfreed⟩, Map.bucketNext_node hn, ?_⟩
  rw [Map.marked, hn]
  rfl

/-- The chains of the buckets. -/
structure Linked (m : Map Key Value) (chain : ℕ → List ℕ) : Prop where
  segment : ∀ b, Segment m.bucketNext (m.buckets b) (chain b) none
  apart : ∀ {b c x}, x ∈ chain b → x ∈ chain c → b = c

/-- The nodes that the iterator has in front of it: those of `l` in its chain and those of the
buckets after its index. -/
structure At (m : Map Key Value) (chain : ℕ → List ℕ) (it : BucketIterator) (l r : List ℕ) :
    Prop where
  segment : Segment m.bucketNext it.currentNode l none
  nodes : r = l ++ following chain m.bucketCount it.bucketIndex
  ended : l = [] → it = bucketEnd m

theorem following_end : following chain m.bucketCount (bucketEnd m).bucketIndex = [] :=
  following_last (Nat.sub_le _ _)

variable {l : List ℕ}

theorem At.current (h : At m chain it l r) : it.currentNode = r.head? := by
  cases l with
  | nil =>
    rw [h.nodes, h.ended rfl, following_end]
    rfl
  | cons x l =>
    rw [h.nodes, h.segment.1]
    rfl

theorem At.eq_end (h : At m chain it l []) : it = bucketEnd m :=
  h.ended (append_eq_nil_iff.mp h.nodes.symm).1

theorem At.ne_end {x : ℕ} (h : At m chain it l (x :: r)) : it ≠ bucketEnd m := by
  rintro rfl
  cases h.current

theorem At.cons {x : ℕ} (h : At m chain it l (x :: r)) :
    ∃ l', l = x :: l' ∧ r = l' ++ following chain m.bucketCount it.bucketIndex := by
  cases l with
  | nil =>
    have hnodes := h.nodes
    rw [h.ended rfl, following_end] at hnodes
    cases hnodes
  | cons y l =>
    obtain ⟨rfl, hr⟩ := List.cons.inj h.nodes
    exact ⟨l, rfl, hr⟩

theorem nextBucket_at (h : Linked m chain) {k b : ℕ} {p : Option ℕ}
    (hp : Segment m.bucketNext p l none) (hk : k = m.bucketCount - 1 - b) :
    ∃ l', Segment m.bucketNext (nextBucket m k ⟨p, b⟩).currentNode l' none ∧
      l' ++ following chain m.bucketCount (nextBucket m k ⟨p, b⟩).bucketIndex =
        l ++ following chain m.bucketCount b ∧
      (l' = [] → l ++ following chain m.bucketCount b = []) := by
  induction k generalizing b p l with
  | zero =>
    refine ⟨l, hp, rfl, fun hl => ?_⟩
    rw [hl, following_last (by omega), append_nil]
  | succ k ih =>
    cases l with
    | cons x l =>
      obtain ⟨rfl, hl⟩ := hp
      exact ⟨x :: l, ⟨rfl, hl⟩, rfl, nofun⟩
    | nil =>
      cases hp
      have hstep : nextBucket m (k + 1) ⟨none, b⟩ = nextBucket m k ⟨m.buckets (b + 1), b + 1⟩ := rfl
      have hb : b < m.bucketCount - 1 := by omega
      rw [hstep, following_succ hb]
      exact ih (h.segment (b + 1)) (by omega)

theorem advanceImpl_at (h : Linked m chain) {x : ℕ} (hat : At m chain it l (x :: r)) :
    ∃ it' l', At m chain it' l' r ∧ it.advanceImpl m = (m.fetch x).map fun _ => it' := by
  obtain ⟨l, rfl, rfl⟩ := hat.cons
  obtain ⟨hcurrent, hl⟩ := hat.segment
  obtain ⟨l', hl', hnodes, hempty⟩ := nextBucket_at h hl rfl
  let next := nextBucket m (m.bucketCount - 1 - it.bucketIndex) ⟨m.bucketNext x, it.bucketIndex⟩
  have hstep : it.advanceImpl m = (m.fetch x).map fun _ =>
      if next.currentNode = none then bucketEnd m else next := by
    rw [advanceImpl, hcurrent]
    cases hn : m.fetch x with
    | error e => simp [hn, bind, Except.bind, Except.map]
    | ok n =>
      have hnext := (fetch_fields hn).2.1
      simp only [hn, bind, Except.bind, ← hnext]
      rfl
  cases l' with
  | nil =>
    refine ⟨bucketEnd m, [], ⟨rfl, ?_, fun _ => rfl⟩, ?_⟩
    · rw [hempty rfl, following_end]
      rfl
    · have hnone : next.currentNode = none := hl'
      rw [hstep, if_pos hnone]
  | cons y l' =>
    refine ⟨next, y :: l', ⟨hl', hnodes.symm, nofun⟩, ?_⟩
    have hsome : next.currentNode ≠ none := by
      rw [hl'.1]
      exact nofun
    rw [hstep, if_neg hsome]

theorem skipDeleted_cons (h : Linked m chain) {l : List ℕ} {x : ℕ} (hat : At m chain it l (x :: r))
    (rounds : ℕ) : ∃ it' l', At m chain it' l' r ∧ skipDeleted m (rounds + 1) it =
      (m.fetch x).bind fun n => if n.isDeleted then skipDeleted m rounds it' else .ok it := by
  obtain ⟨it', l', hat', hstep⟩ := advanceImpl_at h hat
  refine ⟨it', l', hat', ?_⟩
  rw [skipDeleted, hat.current, head?_cons, hstep]
  cases hn : m.fetch x with
  | error e => simp only [hn, bind, Except.bind]
  | ok n => simp only [hn, bind, Except.bind, Except.map]

theorem filter_dropWhile (r : List ℕ) :
    (r.dropWhile m.marked).filter (fun x => !m.marked x) = r.filter fun x => !m.marked x := by
  induction r with
  | nil => rfl
  | cons x r ih =>
    cases hx : m.marked x with
    | true =>
      rw [dropWhile_cons_of_pos hx, ih, filter_cons_of_neg (by rw [hx]; exact nofun)]
    | false => rw [dropWhile_cons_of_neg (by rw [hx]; exact nofun)]

theorem mem_takeWhile_append {l' : List ℕ} {x : ℕ} (h : x ∈ l.takeWhile m.marked) :
    x ∈ (l ++ l').takeWhile m.marked := by
  rw [takeWhile_append]
  split
  · exact mem_append_left _ (takeWhile_subset _ h)
  · exact h

theorem skipDeleted_ok (h : Linked m chain) {rounds : ℕ} (hat : At m chain it l r)
    (hok : skipDeleted m rounds it = .ok it') : (∃ l', At m chain it' l' (r.dropWhile m.marked)) ∧
      ∀ x ∈ r.takeWhile m.marked, m.Held x := by
  induction rounds generalizing it l r with
  | zero => cases hok
  | succ rounds ih =>
    cases r with
    | nil =>
      rw [hat.eq_end] at hok hat
      cases hok
      exact ⟨⟨l, hat⟩, nofun⟩
    | cons x r =>
      obtain ⟨next, l', hat', hstep⟩ := skipDeleted_cons h hat rounds
      rw [hstep] at hok
      cases hn : m.fetch x with
      | error e =>
        rw [hn] at hok
        cases hok
      | ok n =>
        rw [hn] at hok
        obtain ⟨hheld, -, hmarked⟩ := fetch_fields hn
        cases hdeleted : n.isDeleted with
        | false =>
          rw [hdeleted] at hmarked
          simp only [Except.bind, hdeleted] at hok
          cases hok
          rw [dropWhile_cons_of_neg (by rw [hmarked]; exact nofun),
            takeWhile_cons_of_neg (by rw [hmarked]; exact nofun)]
          exact ⟨⟨l, hat⟩, nofun⟩
        | true =>
          rw [hdeleted] at hmarked
          simp only [Except.bind, hdeleted] at hok
          rw [dropWhile_cons_of_pos hmarked, takeWhile_cons_of_pos hmarked]
          obtain ⟨hat'', hrest⟩ := ih hat' hok
          refine ⟨hat'', fun y hy => ?_⟩
          rcases mem_cons.mp hy with rfl | hy
          · exact hheld
          · exact hrest y hy

theorem fetch_of_held {x : ℕ} (h : m.Held x) : ∃ n, m.fetch x = .ok n := by
  obtain ⟨n, hn, hfreed⟩ := h
  exact ⟨n, fetch_eq_ok.mpr ⟨hn, hfreed⟩⟩

section

variable (h : Linked m chain)
include h

theorem skipDeleted_total {rounds : ℕ} (hat : At m chain it l r) (hheld : ∀ x ∈ r, m.Held x)
    (hrounds : r.length < rounds) : ∃ it', skipDeleted m rounds it = .ok it' := by
  induction rounds generalizing it l r with
  | zero => cases hrounds
  | succ rounds ih =>
    cases r with
    | nil =>
      rw [hat.eq_end]
      exact ⟨bucketEnd m, rfl⟩
    | cons x r =>
      obtain ⟨next, l', hat', hstep⟩ := skipDeleted_cons h hat rounds
      obtain ⟨n, hn⟩ := fetch_of_held (hheld x mem_cons_self)
      rw [hstep, hn]
      simp only [Except.bind]
      split
      · have hheld' : ∀ y ∈ r, m.Held y := fun y hy => hheld y (mem_cons_of_mem x hy)
        exact ih hat' hheld' (Nat.lt_of_succ_lt_succ hrounds)
      · exact ⟨it, rfl⟩

theorem visitLoop_cons {l : List ℕ} {x : ℕ} (hat : At m chain it l (x :: r)) (rounds : ℕ) :
    ∃ it' l', At m chain it' l' r ∧ visitLoop m (rounds + 1) it =
      (m.fetch x).bind fun _ => (skipDeleted m rounds it').bind fun next =>
        (visitLoop m rounds next).map (x :: ·) := by
  obtain ⟨it', l', hat', hstep⟩ := advanceImpl_at h hat
  refine ⟨it', l', hat', ?_⟩
  rw [visitLoop, if_neg hat.ne_end, designated, increment, hat.current, head?_cons, hstep]
  cases hn : m.fetch x with
  | error e => simp only [hn, bind, Except.bind]
  | ok n => simp only [hn, bind, Except.bind, Except.map]

variable {visited : List ℕ}

theorem visitLoop_ok {rounds : ℕ} (hat : At m chain it l r)
    (hhead : ∀ x ∈ r.head?, m.marked x = false) (hok : visitLoop m rounds it = .ok visited) :
    visited = r.filter (fun x => !m.marked x) ∧ ∀ x ∈ r, m.Held x := by
  induction rounds generalizing it l r visited with
  | zero => cases hok
  | succ rounds ih =>
    cases r with
    | nil =>
      rw [visitLoop, if_pos hat.eq_end] at hok
      cases hok
      exact ⟨rfl, nofun⟩
    | cons x r =>
      obtain ⟨next, l', hat', hstep⟩ := visitLoop_cons h hat rounds
      rw [hstep] at hok
      cases hn : m.fetch x with
      | error e =>
        rw [hn] at hok
        cases hok
      | ok n =>
        rw [hn] at hok
        cases hskip : skipDeleted m rounds next with
        | error e =>
          simp only [hskip] at hok
          cases hok
        | ok it'' =>
          simp only [Except.bind, hskip] at hok
          obtain ⟨⟨l'', hat''⟩, hpassed⟩ := skipDeleted_ok h hat' hskip
          cases hrest : visitLoop m rounds it'' with
          | error e =>
            rw [hrest] at hok
            cases hok
          | ok rest =>
            rw [hrest] at hok
            cases hok
            have hhead' : ∀ y ∈ (r.dropWhile m.marked).head?, m.marked y = false := by
              intro y hy
              have := head?_dropWhile_not m.marked r
              rw [Option.mem_def.mp hy] at this
              exact this
            obtain ⟨hvisited, hheld⟩ := ih hat'' hhead' hrest
            have hx := hhead x rfl
            rw [filter_cons_of_pos (by rw [hx]; rfl), hvisited, filter_dropWhile]
            refine ⟨rfl, fun y hy => ?_⟩
            rcases mem_cons.mp hy with rfl | hy
            · exact (fetch_fields hn).1
            · rw [← takeWhile_append_dropWhile (l := r)] at hy
              rcases mem_append.mp hy with hy | hy
              · exact hpassed y hy
              · exact hheld y hy

theorem visitLoop_total {rounds : ℕ} (hat : At m chain it l r) (hheld : ∀ x ∈ r, m.Held x)
    (hrounds : r.length < rounds) : ∃ visited, visitLoop m rounds it = .ok visited := by
  induction rounds generalizing it l r with
  | zero => cases hrounds
  | succ rounds ih =>
    cases r with
    | nil =>
      rw [visitLoop, if_pos hat.eq_end]
      exact ⟨[], rfl⟩
    | cons x r =>
      obtain ⟨next, l', hat', hstep⟩ := visitLoop_cons h hat rounds
      obtain ⟨n, hn⟩ := fetch_of_held (hheld x mem_cons_self)
      have hheld' : ∀ y ∈ r, m.Held y := fun y hy => hheld y (mem_cons_of_mem x hy)
      have hlen : r.length < rounds := Nat.lt_of_succ_lt_succ hrounds
      obtain ⟨it'', hskip⟩ := skipDeleted_total h hat' hheld' hlen
      obtain ⟨⟨l'', hat''⟩, -⟩ := skipDeleted_ok h hat' hskip
      have hsuffix : r.dropWhile m.marked <:+ r := dropWhile_suffix _
      obtain ⟨rest, hrest⟩ := ih hat'' (fun y hy => hheld' y (hsuffix.subset hy))
        (Nat.lt_of_le_of_lt hsuffix.length_le hlen)
      rw [hstep, hn]
      simp only [Except.bind, hskip, hrest]
      exact ⟨x :: rest, rfl⟩

end

/-! `begin`. -/

theorem beginLoop_append {rounds garbage : ℕ} {before : List ℕ} (rest : List ℕ)
    (h : ∀ b ∈ before, m.buckets b = none) :
    beginLoop m rounds garbage (before ++ rest) = beginLoop m rounds garbage rest := by
  induction before with
  | nil => rfl
  | cons b before ih =>
    rw [cons_append, beginLoop, h b mem_cons_self]
    exact ih fun c hc => h c (mem_cons_of_mem b hc)

theorem bucketBegin_empty {rounds garbage : ℕ} (h : ∀ b < m.bucketCount, m.buckets b = none) :
    bucketBegin m rounds garbage = .ok (bucketEnd m) := by
  have hrange : ∀ b ∈ range m.bucketCount, m.buckets b = none :=
    fun b hb => h b (mem_range.mp hb)
  rw [bucketBegin, ← append_nil (range m.bucketCount), beginLoop_append [] hrange]
  rfl

/-- The first bucket with a node, and its head. -/
structure First (m : Map Key Value) (i node : ℕ) : Prop where
  lt : i < m.bucketCount
  head : m.buckets i = some node
  before : ∀ b < i, m.buckets b = none

theorem bucketBegin_first {rounds garbage i node : ℕ} (h : First m i node) :
    bucketBegin m rounds garbage = construct m rounds garbage i (some node) := by
  have hrange : range m.bucketCount = range i ++ i :: range' (i + 1) (m.bucketCount - (i + 1)) := by
    have hlen : m.bucketCount = i + (m.bucketCount - (i + 1) + 1) := by
      have := h.lt
      omega
    rw [hlen, range_add, ← range'_eq_map_range, range'_succ]
    congr 3
    omega
  rw [bucketBegin, hrange, beginLoop_append _ fun b hb => h.before b (mem_range.mp hb),
    beginLoop, h.head]

theorem exists_first (h : ¬ ∀ b < m.bucketCount, m.buckets b = none) :
    ∃ i node, First m i node := by
  have hex : ∃ i, i < m.bucketCount ∧ m.buckets i ≠ none := by
    simpa only [not_forall, exists_prop] using h
  classical
  obtain ⟨hlt, hne⟩ := Nat.find_spec hex
  obtain ⟨node, hnode⟩ := Option.ne_none_iff_exists'.mp hne
  refine ⟨Nat.find hex, node, hlt, hnode, fun b hb => ?_⟩
  have hmin := Nat.find_min hex hb
  by_contra hb'
  exact hmin ⟨Nat.lt_trans hb hlt, hb'⟩

section Begin

variable {i node rounds garbage : ℕ}

theorem start_at (h : Linked m chain) (hf : First m i node) : At m chain ⟨some node, garbage⟩
    (chain i) (chain i ++ following chain m.bucketCount garbage) := by
  have hsegment := h.segment i
  rw [hf.head] at hsegment
  refine ⟨hsegment, rfl, fun hnil => ?_⟩
  rw [hnil] at hsegment
  cases hsegment

theorem construct_ok (h : Linked m chain) (hf : First m i node)
    (hok : construct m rounds garbage i (some node) = .ok it) :
    ∃ skipped l, it = ⟨skipped.currentNode, i⟩ ∧ At m chain skipped l
        ((chain i ++ following chain m.bucketCount garbage).dropWhile m.marked) ∧
      ∀ x ∈ (chain i ++ following chain m.bucketCount garbage).takeWhile m.marked, m.Held x := by
  rw [construct] at hok
  cases hskip : skipDeleted m rounds ⟨some node, garbage⟩ with
  | error e =>
    rw [hskip] at hok
    cases hok
  | ok skipped =>
    rw [hskip] at hok
    cases hok
    obtain ⟨⟨l, hat⟩, hheld⟩ := skipDeleted_ok h (start_at h hf) hskip
    exact ⟨skipped, l, rfl, hat, hheld⟩

theorem At.reindexed {x : ℕ} {l : List ℕ} (h : At m chain it (x :: l) r) (i : ℕ) :
    At m chain ⟨it.currentNode, i⟩ (x :: l) (x :: l ++ following chain m.bucketCount i) :=
  ⟨h.segment, rfl, nofun⟩

theorem visit_ok (hok : visit m rounds garbage = .ok visited) :
    ∃ it, bucketBegin m rounds garbage = .ok it ∧ visitLoop m rounds it = .ok visited := by
  rw [visit] at hok
  cases hbegin : bucketBegin m rounds garbage with
  | error e =>
    rw [hbegin] at hok
    cases hok
  | ok it =>
    rw [hbegin] at hok
    exact ⟨it, rfl, hok⟩

theorem unmarked_head (m : Map Key Value) (r : List ℕ) :
    ∀ x ∈ (r.dropWhile m.marked).head?, m.marked x = false := by
  intro x hx
  have := head?_dropWhile_not m.marked r
  rw [Option.mem_def.mp hx] at this
  exact this

section Live

variable {x : ℕ} {rest : List ℕ}

section

variable (h : Linked m chain)
include h

theorem construct_live (hf : First m i node) (hlive : (chain i).dropWhile m.marked = x :: rest)
    (hok : construct m rounds garbage i (some node) = .ok it) :
    At m chain it (x :: rest) (x :: rest ++ following chain m.bucketCount i) ∧
      ∀ y ∈ chain i, y ∈ x :: rest ∨ m.Held y := by
  obtain ⟨skipped, l, rfl, hat, hheld⟩ := construct_ok h hf hok
  have hdrop : (chain i ++ following chain m.bucketCount garbage).dropWhile m.marked =
      x :: rest ++ following chain m.bucketCount garbage := by
    rw [dropWhile_append, hlive]
    rfl
  rw [hdrop] at hat
  have hsegment := (h.segment i).suffix (hlive ▸ dropWhile_suffix m.marked)
  have hl : l = x :: rest := by
    have hat' := hat.segment
    rw [hat.current] at hat'
    exact hat'.unique hsegment
  rw [hl] at hat
  refine ⟨hat.reindexed i, fun y hy => ?_⟩
  rw [← takeWhile_append_dropWhile (l := chain i), hlive] at hy
  rcases mem_append.mp hy with hy | hy
  · exact .inr (hheld y (mem_takeWhile_append hy))
  · exact .inl hy

theorem mem_buckets (hf : First m i node) {y : ℕ} :
    y ∈ chain i ++ following chain m.bucketCount i ↔ ∃ b < m.bucketCount, y ∈ chain b := by
  rw [mem_append, mem_following]
  constructor
  · rintro (hy | ⟨c, -, hc, hy⟩)
    · exact ⟨i, hf.lt, hy⟩
    · exact ⟨c, hc, hy⟩
  · rintro ⟨b, hb, hy⟩
    rcases Nat.lt_trichotomy b i with hlt | rfl | hgt
    · have hsegment := h.segment b
      rw [hf.before b hlt] at hsegment
      rw [Segment.unique hsegment (segment_nil.mpr rfl)] at hy
      cases hy
    · exact .inl hy
    · exact .inr ⟨b, hgt, hb, hy⟩

theorem nodup_buckets (i : ℕ) : (chain i ++ following chain m.bucketCount i).Nodup := by
  have hlists : chain i ++ following chain m.bucketCount i =
      (range' i (m.bucketCount - 1 - i + 1)).flatMap chain := by
    rw [range'_succ, flatMap_cons, following]
  rw [hlists]
  refine nodup_flatMap.mpr ⟨fun b _ => (h.segment b).nodup, ?_⟩
  have hrange : (range' i (m.bucketCount - 1 - i + 1)).Pairwise (· ≠ ·) := nodup_range'
  exact hrange.imp fun hbc x hx hx' => hbc (h.apart hx hx')

theorem visit_live (hf : First m i node) (hlive : (chain i).dropWhile m.marked = x :: rest)
    (hok : visit m rounds garbage = .ok visited) :
    visited = (chain i ++ following chain m.bucketCount i).filter (fun y => !m.marked y) ∧
      ∀ y ∈ chain i ++ following chain m.bucketCount i, m.Held y := by
  obtain ⟨it, hbegin, hloop⟩ := visit_ok hok
  rw [bucketBegin_first hf] at hbegin
  obtain ⟨hat, hpassed⟩ := construct_live h hf hlive hbegin
  have hhead : ∀ y ∈ (x :: rest ++ following chain m.bucketCount i).head?, m.marked y = false := by
    have := unmarked_head m (chain i)
    rw [hlive] at this
    exact this
  obtain ⟨hvisited, hheld⟩ := visitLoop_ok h hat hhead hloop
  refine ⟨?_, fun y hy => ?_⟩
  · rw [hvisited, ← hlive, filter_append, filter_dropWhile, ← filter_append]
  · rcases mem_append.mp hy with hy | hy
    · exact (hpassed y hy).elim (fun hy => hheld y (mem_append_left _ hy)) id
    · exact hheld y (mem_append_right _ hy)

theorem visit_live_total (hf : First m i node) (hlive : (chain i).dropWhile m.marked = x :: rest)
    (hheld : ∀ b < m.bucketCount, ∀ y ∈ chain b, m.Held y) (garbage : ℕ) :
    ∃ rounds visited, visit m rounds garbage = .ok visited := by
  let start := chain i ++ following chain m.bucketCount garbage
  let nodes := x :: rest ++ following chain m.bucketCount i
  obtain ⟨rounds, hstartRounds, hnodesRounds⟩ : ∃ rounds, start.length < rounds ∧
      nodes.length < rounds := ⟨start.length + nodes.length + 1, by omega, by omega⟩
  have hfollowing : ∀ b, ∀ y ∈ following chain m.bucketCount b, m.Held y := by
    intro b y hy
    obtain ⟨c, -, hc, hy⟩ := mem_following.mp hy
    exact hheld c hc y hy
  have hstart : ∀ y ∈ start, m.Held y := by
    intro y hy
    rcases mem_append.mp hy with hy | hy
    · exact hheld i hf.lt y hy
    · exact hfollowing garbage y hy
  have hsuffix : x :: rest <:+ chain i := hlive ▸ dropWhile_suffix m.marked
  have hnodes : ∀ y ∈ nodes, m.Held y := by
    intro y hy
    rcases mem_append.mp hy with hy | hy
    · exact hheld i hf.lt y (hsuffix.subset hy)
    · exact hfollowing i y hy
  have hstartAt : At m chain ⟨some node, garbage⟩ (chain i) start := start_at h hf
  obtain ⟨skipped, hskip⟩ := skipDeleted_total h hstartAt hstart hstartRounds
  have hconstruct : construct m rounds garbage i (some node) = .ok ⟨skipped.currentNode, i⟩ := by
    rw [construct, hskip]
    rfl
  obtain ⟨hat, -⟩ := construct_live h hf hlive hconstruct
  obtain ⟨visited, hloop⟩ := visitLoop_total h hat hnodes hnodesRounds
  refine ⟨rounds, visited, ?_⟩
  rw [visit, bucketBegin_first hf, hconstruct]
  exact hloop

end

end Live

/-- The first bucket with a node has marked ones only: either the iterator starts out as null
but not at the end, or it will come to its first node a second time. -/
theorem not_visit_nodup (h : Linked m chain) (hf : First m i node)
    (hdead : ∀ y ∈ chain i, m.marked y = true) (hok : visit m rounds garbage = .ok visited) :
    ¬ visited.Nodup := by
  obtain ⟨it, hbegin, hloop⟩ := visit_ok hok
  rw [bucketBegin_first hf] at hbegin
  obtain ⟨skipped, l, rfl, hat, -⟩ := construct_ok h hf hbegin
  rw [dropWhile_append_of_pos hdead] at hat
  have hhead := unmarked_head m (following chain m.bucketCount garbage)
  cases hdrop : (following chain m.bucketCount garbage).dropWhile m.marked with
  | nil =>
    rw [hdrop] at hat
    have hnone : skipped.currentNode = none := hat.current
    rw [hnone] at hloop
    cases rounds with
    | zero => cases hloop
    | succ rounds =>
      have hne : (⟨none, i⟩ : BucketIterator) ≠ bucketEnd m := by
        intro heq
        have := congrArg BucketIterator.bucketIndex heq
        exact absurd this (Nat.ne_of_lt hf.lt)
      rw [visitLoop, if_neg hne] at hloop
      cases hloop
  | cons x r =>
    rw [hdrop] at hat hhead
    obtain ⟨l, rfl, -⟩ := hat.cons
    have hx := hhead x rfl
    have hfollows : x ∈ following chain m.bucketCount i := by
      have hmem : x ∈ following chain m.bucketCount garbage :=
        (dropWhile_suffix m.marked).subset (hdrop ▸ mem_cons_self)
      obtain ⟨c, -, hc, hxc⟩ := mem_following.mp hmem
      rcases mem_append.mp ((mem_buckets h hf).mpr ⟨c, hc, hxc⟩) with hxi | hxi
      · rw [hdead x hxi] at hx
        cases hx
      · exact hxi
    obtain ⟨rfl, -⟩ := visitLoop_ok h (hat.reindexed i)
      (fun y hy => Option.some.inj hy ▸ hx) hloop
    rw [cons_append, filter_cons_of_pos (by rw [hx]; rfl), nodup_cons]
    rintro ⟨hnot, -⟩
    refine hnot (mem_filter.mpr ⟨mem_append_right _ hfollows, ?_⟩)
    rw [hx]
    rfl

end Begin

end BucketIterator

section States

open BucketIterator

variable {Thread : Type} [Hashable Key] {s : State Thread Key Value}

/-- The loop from `begin()` to `end()` comes to its end and visits each live node once. -/
def VisitsLive (s : State Thread Key Value) (garbage : ℕ) : Prop :=
  ∃ rounds visited, BucketIterator.visit s.map rounds garbage = .ok visited ∧ visited.Nodup ∧
    ∀ x, x ∈ visited ↔ x ∈ s.published ∧ s.map.Undeleted x

/-- No freed node is linked, and the first bucket with a node has an unmarked one. -/
def Traversable (m : Map Key Value) : Prop :=
  (∀ b < m.bucketCount, ∀ x, Reach m.bucketNext (m.buckets b) x → m.Held x) ∧
    ∀ i node, First m i node → ∃ x, Reach m.bucketNext (some node) x ∧ m.Undeleted x

theorem Mem.exists_linked (hm : Mem s) : ∃ chain, Linked s.map chain ∧
    ∀ b, ∀ x ∈ chain b, In s.map s.published b x := by
  choose chain hchain using hm.chain
  refine ⟨chain, ⟨hchain, fun hb hc => ?_⟩, fun b x hx => hm.mem_chain (hchain b) hx⟩
  exact (hm.mem_chain (hchain _) hb).unique (hm.mem_chain (hchain _) hc)

theorem Inv.live_iff (hi : Inv s) {chain : ℕ → List ℕ} (h : Linked s.map chain)
    (hin : ∀ b, ∀ x ∈ chain b, In s.map s.published b x) {x : ℕ} :
    x ∈ s.published ∧ s.map.Undeleted x ↔
      (∃ b < s.map.bucketCount, x ∈ chain b) ∧ s.map.marked x = false := by
  constructor
  · rintro ⟨hpub, hlive⟩
    obtain ⟨n, hn⟩ := hi.node x hpub
    have hreach := (hi.buckets.head _).reach x ⟨hpub, n, hn, rfl⟩ hlive (rank_lt hpub)
    refine ⟨⟨s.map.hashKey n.key, Nat.mod_lt _ hi.count, (h.segment _).reach_iff.mp hreach⟩, ?_⟩
    have hmarked := (undeleted_iff ⟨n, hn⟩).mpr hlive
    rwa [Bool.not_eq_true'] at hmarked
  · rintro ⟨⟨b, -, hx⟩, hmarked⟩
    have hpub := (hin b x hx).1
    refine ⟨hpub, (undeleted_iff (hi.node x hpub)).mp ?_⟩
    rw [hmarked]
    rfl

theorem Inv.not_visitsLive (hi : Inv s) {i node garbage : ℕ} (hf : First s.map i node)
    (hdead : ∀ x, Reach s.map.bucketNext (some node) x → ¬ s.map.Undeleted x) :
    ¬ VisitsLive s garbage := by
  obtain ⟨chain, h, hin⟩ := hi.toMem.exists_linked
  rintro ⟨rounds, visited, hok, hnodup, -⟩
  refine not_visit_nodup h hf (fun y hy => ?_) hok hnodup
  rw [← hf.head] at hdead
  obtain ⟨n, hn⟩ := hi.node y (hin i y hy).1
  have hreach := (h.segment i).reach_iff.mpr hy
  exact Map.marked_eq_true.mpr ((Map.marked_or_undeleted hn).resolve_right (hdead y hreach))

theorem Inv.visitsLive_iff (hi : Inv s) (garbage : ℕ) :
    VisitsLive s garbage ↔ Traversable s.map := by
  obtain ⟨chain, h, hin⟩ := hi.toMem.exists_linked
  have hdrop : ∀ {i node}, First s.map i node →
      (∃ x, Reach s.map.bucketNext (some node) x ∧ s.map.Undeleted x) →
      ∃ x rest, (chain i).dropWhile s.map.marked = x :: rest := by
    rintro i node hf ⟨x, hreach, hlive⟩
    rw [← hf.head] at hreach
    have hx := (h.segment i).reach_iff.mp hreach
    refine exists_cons_of_ne_nil fun hnil => ?_
    have hmarked := (dropWhile_eq_nil_iff.mp hnil) x hx
    exact (Map.marked_eq_true.mp hmarked).not_undeleted hlive
  constructor
  · intro hvisits
    have hfirst : ∀ i node, First s.map i node →
        ∃ x, Reach s.map.bucketNext (some node) x ∧ s.map.Undeleted x := by
      intro i node hf
      by_contra hnone
      exact hi.not_visitsLive hf (fun x hx hlive => hnone ⟨x, hx, hlive⟩) hvisits
    refine ⟨fun b hb x hx => ?_, hfirst⟩
    have hne : ¬ ∀ b < s.map.bucketCount, s.map.buckets b = none := by
      intro hempty
      rw [hempty b hb] at hx
      exact not_reach_none hx
    obtain ⟨i, node, hf⟩ := exists_first hne
    obtain ⟨y, rest, hlive⟩ := hdrop hf (hfirst i node hf)
    obtain ⟨rounds, visited, hok, -⟩ := hvisits
    exact (visit_live h hf hlive hok).2 x
      ((mem_buckets h hf).mpr ⟨b, hb, (h.segment b).reach_iff.mp hx⟩)
  · rintro ⟨hheld, hfirst⟩
    by_cases hempty : ∀ b < s.map.bucketCount, s.map.buckets b = none
    · refine ⟨1, [], ?_, nodup_nil, fun x => iff_of_false not_mem_nil fun hx => ?_⟩
      · rw [BucketIterator.visit, bucketBegin_empty hempty]
        exact if_pos rfl
      · obtain ⟨⟨b, hb, hx⟩, -⟩ := (hi.live_iff h hin).mp hx
        have hreach := (h.segment b).reach_iff.mpr hx
        rw [hempty b hb] at hreach
        exact not_reach_none hreach
    · obtain ⟨i, node, hf⟩ := exists_first hempty
      obtain ⟨x, rest, hlive⟩ := hdrop hf (hfirst i node hf)
      obtain ⟨rounds, visited, hok⟩ := visit_live_total h hf hlive
        (fun b hb y hy => hheld b hb y ((h.segment b).reach_iff.mpr hy)) garbage
      obtain ⟨hvisited, -⟩ := visit_live h hf hlive hok
      refine ⟨rounds, visited, hok, ?_, fun y => ?_⟩
      · rw [hvisited]
        exact (nodup_buckets h i).filter _
      · rw [hvisited, mem_filter, mem_buckets h hf, hi.live_iff h hin, Bool.not_eq_true']

variable [DecidableEq Thread] [DecidableEq Key] {count : ℕ}

/-- A thread that alone moves, in any state of any execution. -/
theorem bucket_iteration_iff (e : Execution (machine Thread Key Value count)) (n garbage : ℕ) :
    VisitsLive (e.state n) garbage ↔ Traversable (e.state n).map :=
  (inv_state e n).visitsLive_iff garbage

end States

/-- The first node is marked, but an insertion comes before its unlinking; the removal of the
second one then leaves it alone in the bucket. -/
def staleHeadRun : List (Act Bool ℕ ℕ) :=
  .insert true 5 10 :: List.replicate 12 (.access true false) ++
    .remove true 5 :: List.replicate 4 (.access true false) ++
    .insert false 6 20 :: List.replicate 16 (.access false false) ++
    List.replicate 2 (.access true false) ++
    .remove false 6 :: List.replicate 6 (.access false false)

theorem staleHeadRun_runs :
    ((machine Bool ℕ ℕ 1).run (machine Bool ℕ ℕ 1).init staleHeadRun).isSome := by
  decide +kernel

def staleHead : Execution (machine Bool ℕ ℕ 1) := .ofRun staleHeadRun staleHeadRun_runs

theorem staleHead_quiescent : Quiescent (staleHead.state 44) := fun t => by
  have h : ∀ t, (staleHead.state 44).thread t = .idle .removed := by decide +kernel
  exact ⟨.removed, h t⟩

theorem bucket_iteration_fails :
    ¬ ∀ (e : Execution (machine Bool ℕ ℕ 1)) (n : ℕ), Quiescent (e.state n) →
      ∃ garbage, VisitsLive (e.state n) garbage := by
  intro hall
  obtain ⟨garbage, hvisits⟩ := hall staleHead 44 staleHead_quiescent
  have hfirst : BucketIterator.First (staleHead.state 44).map 0 0 :=
    ⟨by decide +kernel, by decide +kernel, nofun⟩
  refine (inv_state staleHead 44).not_visitsLive hfirst (fun x hx hlive => ?_) hvisits
  have hnext : (staleHead.state 44).map.bucketNext 0 = none := by decide +kernel
  rcases reach_some.mp hx with rfl | hx
  · have hmarked : (staleHead.state 44).map.marked 0 = true := by decide +kernel
    exact (Map.marked_eq_true.mp hmarked).not_undeleted hlive
  · exact not_reach_none hx

/-- `begin()` there is null, and not `end()`. -/
example : BucketIterator.bucketBegin (staleHead.state 44).map 2 0 = .ok ⟨none, 0⟩ ∧
    BucketIterator.bucketEnd (staleHead.state 44).map = ⟨none, 1⟩ ∧
    BucketIterator.visit (staleHead.state 44).map 2 0 = .error .nullNode := by
  decide +kernel

end Equilibrium.LockFreeOrderedHashMap
