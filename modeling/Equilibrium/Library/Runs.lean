import Mathlib.Data.List.Basic

/-! The runs of a list: the longest stretches of elements that are no separators, in order. And the
longest beginning of a text that has a given form. -/

namespace Equilibrium.Library.Runs

open List

variable {α : Type*} {p : α → Bool}

def runs (p : α → Bool) (l : List α) : List (List α) :=
  (l.splitOnP p).filter (!·.isEmpty)

theorem ne_nil_of_mem_runs {l w : List α} (h : w ∈ runs p l) : w ≠ [] := by
  have hempty := (mem_filter.mp h).2
  simpa using hempty

theorem flatten_runs (l : List α) : (runs p l).flatten = l.filter (!p ·) := by
  rw [runs, flatten_filter_not_isEmpty]
  induction l with
  | nil => rfl
  | cons c l ih =>
    rw [splitOnP_cons_eq_if_modifyHead]
    by_cases hc : p c
    · rw [if_pos hc, flatten_cons, ih, filter_cons_of_neg (by simp [hc])]
      rfl
    · obtain ⟨s, t, hsplit⟩ := exists_cons_of_ne_nil (splitOnP_ne_nil p l)
      rw [if_neg hc, filter_cons_of_pos (by simp [hc]), ← ih, hsplit]
      rfl

theorem splitOnP_eq_flatMap {q : α → Bool} (hqp : ∀ c, q c → p c) (l : List α) :
    l.splitOnP p = (l.splitOnP q).flatMap (splitOnP p) := by
  induction l with
  | nil => rfl
  | cons c l ih =>
    obtain ⟨s, t, hsplit⟩ := exists_cons_of_ne_nil (splitOnP_ne_nil q l)
    rw [hsplit, flatMap_cons] at ih
    rw [splitOnP_cons_eq_if_modifyHead, splitOnP_cons_eq_if_modifyHead]
    by_cases hq : q c
    · rw [if_pos (hqp c hq), if_pos hq, ih, hsplit]
      rfl
    · rw [if_neg hq, hsplit, modifyHead_cons, flatMap_cons,
        splitOnP_cons_eq_if_modifyHead]
      by_cases hc : p c
      · rw [if_pos hc, if_pos hc, ih]
        rfl
      · obtain ⟨w, ws, hword⟩ := exists_cons_of_ne_nil (splitOnP_ne_nil p s)
        rw [if_neg hc, if_neg hc, ih, hword]
        rfl

theorem runs_eq_flatMap {q : α → Bool} (hqp : ∀ c, q c → p c) (l : List α) :
    runs p l = (l.splitOnP q).flatMap (runs p) := by
  rw [runs, splitOnP_eq_flatMap hqp, filter_flatMap]
  rfl

/-- Parts that are each run together, the last one left out if it is empty, are the runs of all
where each part has one run and the last one has no more. -/
theorem joined_eq_iff (parts : List (List (List α))) (last : List (List α))
    (hparts : ∀ ws ∈ parts, ∀ w ∈ ws, w ≠ []) (hlast : ∀ w ∈ last, w ≠ []) :
    parts.map flatten ++ (if last.flatten = [] then [] else [last.flatten]) =
      parts.flatten ++ last ↔ (∀ ws ∈ parts, ws.length = 1) ∧ last.length ≤ 1 := by
  induction parts with
  | nil =>
    cases last with
    | nil => simp
    | cons w last =>
      have hw : w ≠ [] := hlast w mem_cons_self
      have hjoined : (w :: last).flatten ≠ [] := by simp [hw]
      rw [if_neg hjoined]
      cases last <;> simp
  | cons ws parts ih =>
    obtain ⟨hws, hrest⟩ := forall_mem_cons.mp hparts
    rw [forall_mem_cons, and_assoc, ← ih hrest, map_cons, flatten_cons]
    match ws with
    | [] =>
      refine iff_of_false (fun h => ?_) (by simp)
      -- the empty part is no run
      have hmem : [] ∈ parts.flatten ++ last := by
        rw [nil_append] at h
        rw [← h]
        exact mem_cons_self
      rcases mem_append.mp hmem with hmem | hmem
      · obtain ⟨ws, hws, hmem⟩ := mem_flatten.mp hmem
        exact hrest ws hws [] hmem rfl
      · exact hlast [] hmem rfl
    | [w] => simp
    | w :: w' :: ws =>
      refine iff_of_false (fun h => ?_) (by simp)
      have hhead : w ++ (w' ++ ws.flatten) = w := (List.cons.inj h).1
      have hw' : w' ≠ [] := hws w' (by simp)
      simp [hw'] at hhead

end Equilibrium.Library.Runs

namespace Equilibrium.Library.LongestPrefix

variable {α : Type*} {P : List α → Prop} {p : α → Bool} {text body body' rest rest' : List α}

/-- The text is split behind its longest beginning of the form. -/
structure Longest (P : List α → Prop) (text body rest : List α) : Prop where
  split : text = body ++ rest
  form : P body
  longest : ∀ body' rest', text = body' ++ rest' → P body' → body'.length ≤ body.length

theorem Longest.unique (h : Longest P text body rest) (h' : Longest P text body' rest') :
    body = body' ∧ rest = rest' := by
  have hle := h.longest body' rest' h'.split h'.form
  have hge := h'.longest body rest h.split h.form
  exact List.append_inj (h.split.symm.trans h'.split) (by omega)

theorem length_le_takeWhile (hsplit : text = body ++ rest) (hbody : ∀ c ∈ body, p c) :
    body.length ≤ (text.takeWhile p).length := by
  rw [hsplit, List.takeWhile_append_of_pos hbody, List.length_append]
  exact Nat.le_add_right _ _

end Equilibrium.Library.LongestPrefix
