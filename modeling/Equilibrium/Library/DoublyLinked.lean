import Equilibrium.Library.LinkedChain

/-! Doubly linked lists in a store: `next` and `prev` give the pointers that a node holds. -/

namespace Equilibrium.Library.DoublyLinked

open LinkedChain List
open Function (update update_self update_of_ne)

variable {N : Type} {next next' prev prev' : N → Option N}

/-- The nodes of `l` lead from the pointer `p` to the pointer `q`, and back to `before`. -/
def Linked (next prev : N → Option N) : Option N → Option N → List N → Option N → Prop
  | _, p, [], q => p = q
  | before, p, x :: l, q => p = some x ∧ prev x = before ∧ Linked next prev (some x) (next x) l q

variable {p q before : Option N}

@[simp] theorem linked_nil : Linked next prev before p [] q ↔ p = q :=
  Iff.rfl

variable {l : List N}

@[simp] theorem linked_cons {x : N} : Linked next prev before p (x :: l) q ↔
      p = some x ∧ prev x = before ∧ Linked next prev (some x) (next x) l q := Iff.rfl

theorem Linked.segment (h : Linked next prev before p l q) : Segment next p l q := by
  induction l generalizing before p with
  | nil => exact h
  | cons x l ih => exact ⟨h.1, ih h.2.2⟩

theorem Linked.congr (h : Linked next prev before p l q) (hnext : ∀ x ∈ l, next' x = next x)
    (hprev : ∀ x ∈ l, prev' x = prev x) : Linked next' prev' before p l q := by
  induction l generalizing before p with
  | nil => exact h
  | cons x l ih =>
    obtain ⟨hp, hb, hl⟩ := h
    refine ⟨hp, ?_, ?_⟩
    · rw [hprev x mem_cons_self]
      exact hb
    · rw [hnext x mem_cons_self]
      exact ih hl (fun y hy => hnext y (mem_cons_of_mem _ hy))
        fun y hy => hprev y (mem_cons_of_mem _ hy)

/-- The node before what follows `l`. -/
def lastOr (before : Option N) (l : List N) : Option N := l.getLast?.or before

@[simp] theorem lastOr_nil : lastOr before [] = before := rfl

@[simp] theorem lastOr_none : lastOr none l = l.getLast? := Option.or_none

theorem lastOr_cons {x : N} : lastOr before (x :: l) = lastOr (some x) l := by
  cases l with
  | nil => rfl
  | cons y l =>
    rw [lastOr, lastOr, getLast?_cons_cons]
    cases hlast : (y :: l).getLast? with
    | none => simp at hlast
    | some z => rfl

theorem linked_append {m : List N} : Linked next prev before p (l ++ m) q ↔
      ∃ r, Linked next prev before p l r ∧ Linked next prev (lastOr before l) r m q := by
  induction l generalizing before p with
  | nil => simp
  | cons x l ih =>
    rw [cons_append, linked_cons, ih, lastOr_cons]
    simp only [linked_cons, and_assoc, exists_and_left]

theorem Linked.head (h : Linked next prev before p l none) : p = l.head? := by
  cases l with
  | nil => exact h
  | cons x l => exact h.1

/-- Store `v` in the node that `q` points to, if it points to one. -/
def setLink [DecidableEq N] (f : N → Option N) (q v : Option N) : N → Option N :=
  match q with
  | none => f
  | some a => update f a v

section Update

variable [DecidableEq N]

theorem setLink_of_ne {f : N → Option N} {q v : Option N} {y : N} (h : q ≠ some y) :
    setLink f q v y = f y := by
  cases q with
  | none => rfl
  | some a => exact update_of_ne (fun heq => h (by rw [heq])) _ _

theorem setLink_self {f : N → Option N} {v : Option N} {y : N} : setLink f (some y) v y = v :=
  update_self _ _ _

variable {x : N} {m : List N}

omit [DecidableEq N] in
theorem head_ne (h : x ∉ m) : m.head? ≠ some x := fun heq =>
  h (mem_of_mem_head? (by rw [heq]; rfl))

variable {l : List N}

omit [DecidableEq N] in
theorem getLast_ne (h : x ∉ l) : l.getLast? ≠ some x := fun heq =>
  h (mem_of_mem_getLast? (by rw [heq]; rfl))

variable {p : Option N}

theorem Linked.setLast {before q r : Option N} (h : Linked next prev before p l q)
    (hnodup : l.Nodup) (hl : l ≠ []) : Linked (setLink next l.getLast? r) prev before p l r := by
  obtain ⟨l, y, rfl⟩ := eq_nil_or_concat l |>.resolve_left hl
  rw [concat_eq_append] at *
  have hy : y ∉ l := by
    intro hy
    exact (nodup_append.mp hnodup).2.2 y hy y (by simp) rfl
  obtain ⟨s, hs, rfl, hb, -⟩ := linked_append.mp h
  rw [getLast?_append_cons, getLast?_singleton]
  refine linked_append.mpr ⟨some y, hs.congr (fun x hx => setLink_of_ne ?_) (fun _ _ => rfl), rfl,
    hb, ?_⟩
  · exact fun heq => hy (Option.some.inj heq ▸ hx)
  · exact setLink_self

theorem Linked.setFirst {before before' : Option N} (h : Linked next prev before p m none)
    (hnodup : m.Nodup) : Linked next (setLink prev m.head? before') before' p m none := by
  cases m with
  | nil => exact h
  | cons y m =>
    obtain ⟨hp, -, hm⟩ := h
    refine ⟨hp, setLink_self, hm.congr (fun _ _ => rfl) fun x hx => setLink_of_ne ?_⟩
    exact fun heq => (nodup_cons.mp hnodup).1 (Option.some.inj heq ▸ hx)

/-- A new node between `l` and `m`. -/
theorem Linked.insert (h : Linked next prev none p (l ++ m) none) (hx : x ∉ l ++ m) :
    Linked (setLink (update next x m.head?) l.getLast? (some x))
      (setLink (update prev x l.getLast?) m.head? (some x)) none
      (if l = [] then some x else p) (l ++ x :: m) none := by
  obtain ⟨hxl, hxm⟩ := not_or.mp (fun hmem => hx (mem_append.mpr hmem))
  obtain ⟨hnodupl, hnodupm, hdisj⟩ := nodup_append.mp h.segment.nodup
  obtain ⟨r, hl, hm⟩ := linked_append.mp h
  have hr := hm.head
  refine linked_append.mpr ⟨some x, ?_, rfl, ?_, ?_⟩
  · by_cases hnil : l = []
    · rw [if_pos hnil, hnil]
      rfl
    · rw [if_neg hnil]
      refine (hl.setLast hnodupl hnil).congr (fun y hy => ?_) fun y hy => ?_
      · have hne : y ≠ x := ne_of_mem_of_not_mem hy hxl
        by_cases hlast : l.getLast? = some y
        · rw [hlast, setLink_self, setLink_self]
        · rw [setLink_of_ne hlast, setLink_of_ne hlast, update_of_ne hne]
      · have hfirst : m.head? ≠ some y := head_ne fun hym => hdisj y hy y hym rfl
        rw [setLink_of_ne hfirst, update_of_ne (ne_of_mem_of_not_mem hy hxl)]
  · rw [setLink_of_ne (head_ne hxm), update_self, lastOr_none]
  · rw [setLink_of_ne (getLast_ne hxl), update_self]
    refine (hr ▸ hm.setFirst hnodupm : Linked next (setLink prev m.head? (some x)) (some x) m.head? m
      none).congr (fun y hy => ?_) fun y hy => ?_
    · have hlast : l.getLast? ≠ some y := getLast_ne fun hyl => hdisj y hyl y hy rfl
      rw [setLink_of_ne hlast, update_of_ne (ne_of_mem_of_not_mem hy hxm)]
    · by_cases hfirst : m.head? = some y
      · rw [hfirst, setLink_self, setLink_self]
      · rw [setLink_of_ne hfirst, setLink_of_ne hfirst,
          update_of_ne (ne_of_mem_of_not_mem hy hxm)]

section

omit [DecidableEq N]

theorem Linked.prev_eq (h : Linked next prev none p (l ++ x :: m) none) : prev x = l.getLast? := by
  obtain ⟨r, -, -, hb, -⟩ := linked_append.mp h
  rw [hb, lastOr_none]

theorem Linked.next_eq {before p : Option N} {l m : List N} {x : N}
    (h : Linked next prev before p (l ++ x :: m) none) : next x = m.head? := by
  obtain ⟨r, -, -, -, hm⟩ := linked_append.mp h
  exact hm.head

end

theorem Linked.remove (h : Linked next prev none p (l ++ x :: m) none) :
    Linked (setLink next (prev x) (next x)) (setLink prev (next x) (prev x)) none
      (if prev x = none then next x else p) (l ++ m) none := by
  rw [h.prev_eq, h.next_eq]
  obtain ⟨hnodupl, hnodupm, hdisj⟩ := nodup_append.mp h.segment.nodup
  obtain ⟨r, hl, -, -, hm⟩ := linked_append.mp h
  have hr := hm.head
  refine linked_append.mpr ⟨m.head?, ?_, ?_⟩
  · by_cases hnil : l = []
    · rw [hnil, getLast?_nil, if_pos rfl]
      rfl
    · have hlast : l.getLast? ≠ none := by simpa using hnil
      rw [if_neg hlast]
      refine (hl.setLast hnodupl hnil).congr (fun y hy => rfl) fun y hy => setLink_of_ne ?_
      exact head_ne fun hym => hdisj y hy y (mem_cons_of_mem _ hym) rfl
  · rw [lastOr_none]
    refine (hr ▸ hm.setFirst (nodup_cons.mp hnodupm).2 : Linked next
      (setLink prev m.head? l.getLast?) l.getLast? m.head? m none).congr
      (fun y hy => setLink_of_ne ?_) fun y hy => rfl
    exact getLast_ne fun hyl => hdisj y hyl y (mem_cons_of_mem _ hy) rfl

theorem segment_remove (h : Segment next p (l ++ x :: m) none) :
    Segment (setLink next l.getLast? (next x)) (if l = [] then next x else p) (l ++ m) none := by
  rcases eq_nil_or_concat l with rfl | ⟨k, a, rfl⟩
  · rw [if_pos rfl]
    exact h.2
  · rw [concat_eq_append] at *
    rw [if_neg (by simp), getLast?_append_cons, getLast?_singleton]
    rw [append_assoc] at *
    exact h.unlink

omit [DecidableEq N] in
/-- Each of the two pointers between neighbours tells the other. -/
theorem Linked.next_eq_some_iff (h : Linked next prev none p l none) {y : N} (hx : x ∈ l)
    (hy : y ∈ l) : next x = some y ↔ prev y = some x := by
  constructor
  · intro hnext
    obtain ⟨a, b, rfl⟩ := append_of_mem hx
    rw [h.next_eq] at hnext
    cases b with
    | nil => cases hnext
    | cons z b =>
      obtain rfl := Option.some.inj hnext
      have h' : Linked next prev none p ((a ++ [x]) ++ z :: b) none := by simpa using h
      rw [h'.prev_eq, getLast?_append_cons, getLast?_singleton]
  · intro hprev
    obtain ⟨a, b, rfl⟩ := append_of_mem hy
    rw [h.prev_eq] at hprev
    rcases eq_nil_or_concat a with rfl | ⟨k, z, rfl⟩
    · cases hprev
    · rw [concat_eq_append] at *
      rw [getLast?_append_cons, getLast?_singleton] at hprev
      obtain rfl := Option.some.inj hprev
      have h' : Linked next prev none p (k ++ z :: (y :: b)) none := by simpa using h
      exact h'.next_eq

end Update

end Equilibrium.Library.DoublyLinked
