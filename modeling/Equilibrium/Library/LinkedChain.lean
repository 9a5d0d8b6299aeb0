import Mathlib.Data.List.Nodup
import Mathlib.Data.Int.Notation

/-! Singly linked lists in a store: `next` gives the pointer that a node holds, and
a pointer is a node or null. -/

namespace Equilibrium.Library.LinkedChain

open List

variable {N : Type} {next next' : N → Option N}

/-- The nodes of `l` lead from the pointer `p` to the pointer `q`. -/
def Segment (next : N → Option N) : Option N → List N → Option N → Prop
  | p, [], q => p = q
  | p, x :: l, q => p = some x ∧ Segment next (next x) l q

variable {p : Option N}

@[simp] theorem segment_nil {q : Option N} : Segment next p [] q ↔ p = q := Iff.rfl

variable {l : List N}

@[simp] theorem segment_cons {q : Option N} {x : N} :
    Segment next p (x :: l) q ↔ p = some x ∧ Segment next (next x) l q := Iff.rfl

theorem segment_append {r : Option N} {m : List N} :
    Segment next p (l ++ m) r ↔ ∃ q, Segment next p l q ∧ Segment next q m r := by
  induction l generalizing p with
  | nil => simp
  | cons x l ih =>
    rw [cons_append, segment_cons, ih]
    simp only [segment_cons, and_assoc, exists_and_left]

theorem Segment.congr {p q : Option N} {l : List N} (h : Segment next p l q)
    (heq : ∀ x ∈ l, next' x = next x) : Segment next' p l q := by
  induction l generalizing p with
  | nil => exact h
  | cons x l ih =>
    obtain ⟨hp, hl⟩ := h
    refine ⟨hp, ?_⟩
    rw [heq x (by simp)]
    exact ih hl fun y hy => heq y (by simp [hy])

theorem Segment.unique {p : Option N} {l m : List N} (hl : Segment next p l none)
    (hm : Segment next p m none) : l = m := by
  induction l generalizing p m with
  | nil =>
    cases m with
    | nil => rfl
    | cons y m =>
      rw [hl] at hm
      cases hm.1
  | cons x l ih =>
    obtain ⟨rfl, hl⟩ := hl
    cases m with
    | nil => cases hm
    | cons y m =>
      obtain ⟨hxy, hm⟩ := hm
      cases hxy
      rw [ih hl hm]

theorem Segment.head_eq (h : Segment next p l none) : p = l.head? := by
  cases l with
  | nil => exact h
  | cons x l => exact h.1

theorem Segment.suffix {p : Option N} {l l' : List N} (h : Segment next p l none)
    (hsuffix : l' <:+ l) : Segment next l'.head? l' none := by
  obtain ⟨l₀, rfl⟩ := hsuffix
  obtain ⟨q, -, hq⟩ := segment_append.mp h
  rw [← Segment.head_eq hq]
  exact hq

theorem Segment.nodup (h : Segment next p l none) : l.Nodup := by
  induction l generalizing p with
  | nil => exact nodup_nil
  | cons x l ih =>
    refine nodup_cons.mpr ⟨fun hx => ?_, ih h.2⟩
    obtain ⟨a, b, rfl⟩ := append_of_mem hx
    obtain ⟨q, -, hq⟩ := segment_append.mp h.2
    have := Segment.unique hq.2 h.2
    have hlen := congrArg length this
    simp at hlen
    omega

/-- A node on the way from a pointer. -/
inductive Reach (next : N → Option N) : Option N → N → Prop
  | here (x : N) : Reach next (some x) x
  | there {x y : N} (h : Reach next (next x) y) : Reach next (some x) y

variable {y : N}

theorem not_reach_none : ¬ Reach next none y := nofun

theorem reach_some {x : N} : Reach next (some x) y ↔ y = x ∨ Reach next (next x) y := by
  constructor
  · intro h
    cases h with
    | here => exact .inl rfl
    | there h => exact .inr h
  · rintro (rfl | h)
    · exact .here _
    · exact .there h

theorem Segment.reach_iff (h : Segment next p l none) : Reach next p y ↔ y ∈ l := by
  induction l generalizing p with
  | nil =>
    rw [segment_nil] at h
    simp [h, not_reach_none]
  | cons x l ih =>
    obtain ⟨rfl, hl⟩ := h
    rw [reach_some, ih hl, mem_cons]

theorem Reach.congr {p : Option N} {y : N} (h : Reach next p y)
    (heq : ∀ x, Reach next p x → next' x = next x) : Reach next' p y := by
  induction h with
  | here x => exact .here x
  | there h ih =>
    refine .there ?_
    rw [heq _ (.here _)]
    exact ih fun x hx => heq x (.there hx)

theorem reach_congr (heq : ∀ x, Reach next p x → next' x = next x) :
    Reach next' p y ↔ Reach next p y := by
  refine ⟨fun h => ?_, fun h => h.congr heq⟩
  induction h with
  | here x => exact .here x
  | there h ih =>
    refine .there ?_
    rw [heq _ (.here _)] at ih
    exact ih fun x hx => heq x (.there hx)

theorem Reach.trans {x : N} (hx : Reach next p x) (hy : Reach next (next x) y) :
    Reach next p y := by
  induction hx with
  | here x => exact .there hy
  | there _ ih => exact .there (ih hy)

section Update

variable [DecidableEq N]

theorem Segment.update {p q r : Option N} {l : List N} (h : Segment next p l q) {x : N}
    (hx : x ∉ l) : Segment (Function.update next x r) p l q :=
  h.congr fun _ hy => Function.update_of_ne (ne_of_mem_of_not_mem hy hx) _ _

theorem Segment.unlink {p : Option N} {l m : List N} {a x : N}
    (h : Segment next p (l ++ a :: x :: m) none) :
    Segment (Function.update next a (next x)) p (l ++ a :: m) none := by
  have hnodup := h.nodup
  obtain ⟨q, hl, rfl, -, hm⟩ := segment_append.mp h
  rw [nodup_append] at hnodup
  obtain ⟨-, htail, hdisj⟩ := hnodup
  have hal : a ∉ l := fun ha => hdisj a ha a (by simp) rfl
  have ham : a ∉ m := fun ha => (nodup_cons.mp htail).1 (by simp [ha])
  refine segment_append.mpr ⟨some a, hl.update hal, rfl, ?_⟩
  rw [Function.update_self]
  exact hm.update ham

theorem Segment.extend {p : Option N} {l : List N} {a x : N}
    (h : Segment next p (l ++ [a]) none) (hx : x ∉ l ++ [a]) (hnext : next x = none) :
    Segment (Function.update next a (some x)) p (l ++ [a] ++ [x]) none := by
  obtain ⟨-, -, hdisj⟩ := nodup_append.mp h.nodup
  have hal : a ∉ l := fun ha => hdisj a ha a (by simp) rfl
  have hxa : x ≠ a := fun hxa => hx (by simp [hxa])
  obtain ⟨q, hl, rfl, -⟩ := segment_append.mp h
  rw [append_assoc]
  refine segment_append.mpr ⟨some a, hl.update hal, rfl, ?_⟩
  rw [Function.update_self]
  refine ⟨rfl, ?_⟩
  rw [Function.update_of_ne hxa]
  exact hnext

end Update

section Following

variable {chain : ℕ → List N} {count b : ℕ}

/-- The nodes of the lists after list `b`, of `count` lists. -/
def following (chain : ℕ → List N) (count b : ℕ) : List N :=
  (List.range' (b + 1) (count - 1 - b)).flatMap chain

theorem following_succ (hb : b < count - 1) :
    following chain count b = chain (b + 1) ++ following chain count (b + 1) := by
  have hlen : count - 1 - b = count - 1 - (b + 1) + 1 := by omega
  rw [following, hlen, range'_succ, flatMap_cons, following]

theorem following_last (hb : count - 1 ≤ b) : following chain count b = [] := by
  rw [following, Nat.sub_eq_zero_of_le hb]
  rfl

theorem mem_following {x : N} : x ∈ following chain count b ↔
    ∃ c, b < c ∧ c < count ∧ x ∈ chain c := by
  rw [following, mem_flatMap]
  refine exists_congr fun c => ?_
  rw [mem_range'_1, ← and_assoc]
  exact and_congr_left' (by omega)

end Following

/-! Linked lists in a store whose nodes lose rank along every link, and from which a
node may be spliced out through a successor read earlier. What still matters stays
reachable as long as the successor led to it when it was read. -/

open Function

variable {N : Type} {next : N → Option N} {rank : N → ℤ} {Mem : N → Prop}

/-- The links of the nodes in `Mem` lead to nodes in `Mem` of a lower rank. -/
def Descends (next : N → Option N) (rank : N → ℤ) (Mem : N → Prop) : Prop :=
  ∀ x y, Mem x → next x = some y → Mem y ∧ rank y < rank x

/-- The pointer is null or leads to a node in `Mem` of a rank below `r`. -/
def Below (rank : N → ℤ) (Mem : N → Prop) (r : ℤ) (p : Option N) : Prop :=
  ∀ y, p = some y → Mem y ∧ rank y < r

variable {x : N}

theorem Descends.below (h : Descends next rank Mem) (hx : Mem x) :
    Below rank Mem (rank x) (next x) :=
  fun y hy => h x y hx hy

variable {r : ℤ} {p : Option N}

theorem Below.mono {r' : ℤ} (h : Below rank Mem r p) (hr : r ≤ r') : Below rank Mem r' p :=
  fun y hy => ⟨(h y hy).1, Int.lt_of_lt_of_le (h y hy).2 hr⟩

theorem below_none : Below rank Mem r none := nofun

variable {z : N}

theorem Reach.lower (h : Descends next rank Mem) {p : Option N} {z : N} (hz : Reach next p z)
    {r : ℤ} (hp : Below rank Mem r p) : Mem z ∧ rank z < r := by
  induction hz generalizing r with
  | here x => exact hp x rfl
  | there hz ih =>
    obtain ⟨hmem, hlt⟩ := hp _ rfl
    obtain ⟨hz', hrank⟩ := ih (h.below hmem)
    exact ⟨hz', Int.lt_trans hrank hlt⟩

theorem Reach.ne_or_below (h : Descends next rank Mem) {x z : N} (hx : Mem x)
    (hz : Reach next (some x) z) : z = x ∨ rank z < rank x := by
  rcases reach_some.mp hz with rfl | hz
  · exact .inl rfl
  · exact .inr (hz.lower h (h.below hx)).2

theorem Descends.exists_segment (h : Descends next rank Mem) {lo : ℤ}
    (hlo : ∀ x, Mem x → lo ≤ rank x) (hp : Below rank Mem r p) : ∃ l, Segment next p l none := by
  obtain ⟨k, hk⟩ : ∃ k : ℕ, r ≤ lo + k := ⟨(r - lo).toNat, by omega⟩
  induction k generalizing r p with
  | zero =>
    cases p with
    | none => exact ⟨[], rfl⟩
    | some x =>
      have := hlo x (hp x rfl).1
      have := (hp x rfl).2
      omega
  | succ k ih =>
    cases p with
    | none => exact ⟨[], rfl⟩
    | some x =>
      have hrank := (hp x rfl).2
      obtain ⟨l, hl⟩ := ih (h.below (hp x rfl).1) (by omega)
      exact ⟨x :: l, rfl, hl⟩

theorem Segment.sorted (h : Descends next rank Mem) {l : List N} (hp : Below rank Mem r p)
    (hl : Segment next p l none) : l.Pairwise fun x y => rank y < rank x := by
  induction l generalizing p r with
  | nil => exact .nil
  | cons x l ih =>
    obtain ⟨rfl, hrest⟩ := hl
    have hx := h.below (hp x rfl).1
    exact .cons (fun y hy => ((hrest.reach_iff.mpr hy).lower h hx).2) (ih hx hrest)

theorem Segment.earlier (h : Descends next rank Mem) {l : List N} {p : Option N} {r : ℤ}
    (hp : Below rank Mem r p) (hl : Segment next p l none) {x y : N} (hx : x ∈ l) (hy : y ∈ l)
    (hlt : rank y < rank x) : List.Sublist [x, y] l := by
  have hsorted := hl.sorted h hp
  obtain ⟨l₁, l₂, rfl⟩ := append_of_mem hx
  rw [pairwise_append] at hsorted
  have hy₂ : y ∈ l₂ := by
    rcases mem_append.mp hy with hy | hy
    · have := hsorted.2.2 y hy x (by simp)
      omega
    · rcases mem_cons.mp hy with rfl | hy
      · omega
      · exact hy
  have hrest : List.Sublist [x, y] (x :: l₂) :=
    cons_sublist_cons.mpr (singleton_sublist.mpr hy₂)
  exact hrest.trans (sublist_append_right l₁ (x :: l₂))

theorem Reach.keep {next' : N → Option N} (h : Reach next p z)
    (heq : ∀ x y, Reach next p x → next x = some y → next' x = some y) : Reach next' p z := by
  induction h with
  | here x => exact .here x
  | @there x z h ih =>
    refine .there ?_
    cases hx : next x with
    | none =>
      rw [hx] at h
      exact absurd h not_reach_none
    | some y =>
      rw [heq x y (.here x) hx, ← hx]
      exact ih fun w v hw => heq w v (.there hw)

variable [DecidableEq N]

theorem reach_update_below (h : Descends next rank Mem) {a : N} {q : Option N}
    (hp : Below rank Mem (rank a) p) : Reach (update next a q) p z ↔ Reach next p z := by
  refine reach_congr fun x hx => ?_
  refine update_of_ne ?_ _ _
  rintro rfl
  exact Int.lt_irrefl _ (hx.lower h hp).2

theorem Reach.splice (h : Descends next rank Mem) {a : N} {q : Option N} (ha : Mem a)
    (hax : next a = some x) (hq : Below rank Mem (rank x) q)
    (hkeep : z ≠ x → rank z < rank x → Reach next q z) (hz : z ≠ x) (hp : Below rank Mem r p)
    (hr : Reach next p z) : Reach (update next a q) p z := by
  induction hr generalizing r with
  | here y => exact .here y
  | @there y z hr ih =>
    obtain ⟨hy, -⟩ := hp y rfl
    have hrest := ih hkeep hz (h.below hy)
    refine .there ?_
    by_cases hya : y = a
    · subst hya
      rw [Function.update_self]
      rw [hax] at hr
      have hxa := (h y x ha hax).2
      have hlt := ((hr.ne_or_below h (h y x ha hax).1).resolve_left hz)
      exact (reach_update_below h (hq.mono (Int.le_of_lt hxa))).mpr (hkeep hz hlt)
    · rwa [update_of_ne hya]

theorem Reach.update_self {a : N} {q : Option N} (h : Reach next p a) :
    Reach (update next a q) p a := by
  induction h with
  | here => exact .here _
  | @there y a h ih =>
    by_cases hy : y = a
    · subst hy
      exact .here y
    · refine .there ?_
      rwa [update_of_ne hy]

end Equilibrium.Library.LinkedChain
