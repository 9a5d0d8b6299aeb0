import Mathlib.Data.List.Perm.Basic
import Mathlib.Data.List.Rotate

/-! Lists sorted under a strict weak order, and the two steps that sort an array in place: an
insertion into a sorted list, and a partition that swaps the elements below its pivot to the
front. -/

namespace Equilibrium.Library.WeakOrder

open List

variable {α : Type*} (lt : α → α → Prop) {a b c key pivot : α} {xs ys small large : List α}

def Sorted (xs : List α) : Prop := xs.Pairwise fun a b => ¬ lt b a

/-- Whether the elements are below the pivot, for a list and another one behind it. -/
structure Parted (pivot : α) (small large : List α) : Prop where
  small : ∀ x ∈ small, lt x pivot
  large : ∀ x ∈ large, ¬ lt x pivot

variable {lt}

theorem sorted_singleton (a : α) : Sorted lt [a] := pairwise_singleton _ a

section Partition

section

variable (h : Parted lt pivot small large)
include h

theorem Parted.push_large (ha : ¬ lt a pivot) : Parted lt pivot small (large ++ [a]) where
  small := h.small
  large := by
    intro x hx
    rcases mem_append.mp hx with hx | hx
    · exact h.large x hx
    · rwa [mem_singleton.mp hx]

theorem Parted.push_small (ha : lt a pivot) : Parted lt pivot (small ++ [a]) (large.rotate 1) where
  small := by
    intro x hx
    rcases mem_append.mp hx with hx | hx
    · exact h.small x hx
    · rwa [mem_singleton.mp hx]
  large x hx := h.large x (mem_rotate.mp hx)

theorem Parted.of_perm (hsmall : xs.Perm small) (hlarge : ys.Perm large) :
    Parted lt pivot xs ys where
  small x hx := h.small x (hsmall.mem_iff.mp hx)
  large y hy := h.large y (hlarge.mem_iff.mp hy)

end

theorem perm_push_small (small large : List α) (a : α) :
    (small ++ [a] ++ large.rotate 1).Perm (small ++ large ++ [a]) := by
  have hswap : (a :: large.rotate 1).Perm (large ++ [a]) :=
    ((large.rotate_perm 1).cons a).trans (perm_append_singleton a large).symm
  rw [append_assoc, append_assoc]
  exact hswap.append_left small

variable [IsStrictWeakOrder α lt]

theorem Parted.sorted (h : Parted lt pivot small large) (hsmall : Sorted lt small)
    (hlarge : Sorted lt large) : Sorted lt (small ++ pivot :: large) := by
  refine pairwise_append.mpr ⟨hsmall, pairwise_cons.mpr ⟨h.large, hlarge⟩, ?_⟩
  intro x hx y hy hyx
  have hxp := h.small x hx
  rcases mem_cons.mp hy with rfl | hy
  · exact asymm_of lt hxp hyx
  · exact h.large y hy (trans_of lt hyx hxp)

end Partition

section Insertion

variable [IsStrictWeakOrder α lt]

theorem not_lt_trans (hab : ¬ lt a b) (hbc : ¬ lt b c) : ¬ lt a c := by
  intro hac
  by_cases hba : lt b a
  case pos => exact hbc (trans_of lt hba hac)
  case neg =>
    by_cases hcb : lt c b
    case pos => exact hab (trans_of lt hac hcb)
    case neg => exact (IsStrictWeakOrder.incomp_trans a b c ⟨hab, hba⟩ ⟨hbc, hcb⟩).1 hac

theorem Sorted.insert (h : Sorted lt (xs ++ ys)) (hbefore : ∀ x ∈ xs.getLast?, ¬ lt key x)
    (hbehind : ∀ y ∈ ys, lt key y) : Sorted lt (xs ++ key :: ys) := by
  obtain ⟨hxs, hys, hcross⟩ := pairwise_append.mp h
  have hkey : ∀ x ∈ xs, ¬ lt key x := by
    rcases eq_nil_or_concat' xs with rfl | ⟨front, last, rfl⟩
    · simp
    · have hlast : ¬ lt key last := hbefore last (by simp)
      intro x hx
      rcases mem_append.mp hx with hx | hx
      · exact not_lt_trans hlast ((pairwise_append.mp hxs).2.2 x hx last (by simp))
      · rwa [mem_singleton.mp hx]
  refine pairwise_append.mpr ⟨hxs, pairwise_cons.mpr ⟨?_, hys⟩, ?_⟩
  · exact fun y hy => asymm_of lt (hbehind y hy)
  · intro x hx y hy
    rcases mem_cons.mp hy with rfl | hy
    · exact hkey x hx
    · exact hcross x hx y hy

end Insertion

section Search

variable [IsStrictWeakOrder α lt] [DecidableRel lt] (value : α)

theorem Sorted.lt_iff (h : Sorted lt xs) {i : ℕ} (hi : i < xs.length) :
    lt xs[i] value ↔ i < xs.countP fun x => lt x value := by
  induction xs generalizing i with
  | nil => cases hi
  | cons x xs ih =>
    obtain ⟨hx, hxs⟩ := pairwise_cons.mp h
    by_cases hbelow : lt x value
    case pos =>
      rw [countP_cons_of_pos (by simpa using hbelow)]
      cases i with
      | zero => simpa using hbelow
      | succ i =>
        rw [getElem_cons_succ, ih hxs (Nat.lt_of_succ_lt_succ hi)]
        omega
    case neg =>
      have hall : ∀ y ∈ x :: xs, ¬ lt y value := by
        intro y hy
        rcases mem_cons.mp hy with rfl | hy
        · exact hbelow
        · exact not_lt_trans (hx y hy) hbelow
      have hcount : (x :: xs).countP (fun x => decide (lt x value)) = 0 :=
        countP_eq_zero.mpr fun y hy => by simpa using hall y hy
      rw [hcount]
      exact ⟨fun hlt => absurd hlt (hall _ (getElem_mem hi)), fun hlt => absurd hlt (Nat.not_lt_zero i)⟩

end Search

end Equilibrium.Library.WeakOrder
