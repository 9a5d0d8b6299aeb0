import Mathlib.Data.List.Perm.Subperm
import Mathlib.Data.List.Nodup
import Mathlib.Data.List.Range

/-! Tokens that are issued in order. Each is held by one holder until it is returned, and is
returned once. A holder may hold many tokens, or at most one. -/

namespace Equilibrium.Library

open List

/-- The tokens below `next` were issued; every one is held by one holder or was returned. -/
structure Ledger {α : Type*} (holds : α → ℕ → Prop) (next : ℕ) (returned : List ℕ) : Prop where
  issued : ∀ x n, holds x n → n < next
  kept : ∀ x n, holds x n → n ∉ returned
  unique : ∀ x y n, holds x n → holds y n → x = y
  accounted : ∀ n < next, n ∉ returned → ∃ x, holds x n
  returned_lt : ∀ n ∈ returned, n < next
  returned_once : returned.Nodup

namespace Ledger

variable {α : Type*} {holds holds' : α → ℕ → Prop} {next n : ℕ} {returned : List ℕ} {x y : α}

theorem empty (hnone : ∀ x n, ¬holds x n) : Ledger holds 0 [] where
  issued x n h := absurd h (hnone x n)
  kept x n h := absurd h (hnone x n)
  unique x _ n h := absurd h (hnone x n)
  accounted n h := absurd h (Nat.not_lt_zero n)
  returned_lt _ h := nomatch h
  returned_once := nodup_nil

section

variable (h : Ledger holds next returned)
include h

theorem congr (hiff : ∀ x n, holds' x n ↔ holds x n) : Ledger holds' next returned := by
  rwa [show holds' = holds from funext fun x => funext fun n => propext (hiff x n)]

theorem issue (hiff : ∀ y m, holds' y m ↔ holds y m ∨ y = x ∧ m = next) :
    Ledger holds' (next + 1) returned where
  issued y m hy := by
    obtain hold | ⟨-, rfl⟩ := (hiff y m).mp hy
    · exact Nat.lt_succ_of_lt (h.issued y m hold)
    · exact Nat.lt_succ_self m
  kept y m hy hmem := by
    obtain hold | ⟨-, rfl⟩ := (hiff y m).mp hy
    · exact h.kept y m hold hmem
    · exact Nat.lt_irrefl m (h.returned_lt m hmem)
  unique y z m hy hz := by
    obtain hold | ⟨rfl, rfl⟩ := (hiff y m).mp hy
    · obtain hold' | ⟨-, rfl⟩ := (hiff z m).mp hz
      · exact h.unique y z m hold hold'
      · exact absurd (h.issued y m hold) (Nat.lt_irrefl m)
    · obtain hold' | ⟨rfl, -⟩ := (hiff z m).mp hz
      · exact absurd (h.issued z m hold') (Nat.lt_irrefl m)
      · rfl
  accounted m hm hreturned := by
    by_cases hlast : m = next
    case pos => exact ⟨x, (hiff x m).mpr (.inr ⟨rfl, hlast⟩)⟩
    case neg =>
      obtain ⟨y, hy⟩ := h.accounted m (by omega) hreturned
      exact ⟨y, (hiff y m).mpr (.inl hy)⟩
  returned_lt m hm := Nat.lt_succ_of_lt (h.returned_lt m hm)
  returned_once := h.returned_once

theorem retire (hn : holds x n) (hiff : ∀ y m, holds' y m ↔ holds y m ∧ m ≠ n) :
    Ledger holds' next (n :: returned) where
  issued y m hy := h.issued y m ((hiff y m).mp hy).1
  kept y m hy hmem := by
    obtain ⟨hold, hne⟩ := (hiff y m).mp hy
    obtain rfl | hmem := mem_cons.mp hmem
    · exact hne rfl
    · exact h.kept y m hold hmem
  unique y z m hy hz := h.unique y z m ((hiff y m).mp hy).1 ((hiff z m).mp hz).1
  accounted m hm hreturned := by
    rw [mem_cons, not_or] at hreturned
    obtain ⟨y, hy⟩ := h.accounted m hm hreturned.2
    exact ⟨y, (hiff y m).mpr ⟨hy, hreturned.1⟩⟩
  returned_lt m hm := by
    obtain rfl | hm := mem_cons.mp hm
    · exact h.issued x m hn
    · exact h.returned_lt m hm
  returned_once := nodup_cons.mpr ⟨h.kept x n hn, h.returned_once⟩

theorem retire_all {ns : List ℕ} (hns : ns.Nodup) (hheld : ∀ n ∈ ns, ∃ x, holds x n)
    (hiff : ∀ y m, holds' y m ↔ holds y m ∧ m ∉ ns) :
    Ledger holds' next (ns.reverse ++ returned) := by
  induction ns generalizing holds returned with
  | nil => exact h.congr fun y m => by simp [hiff]
  | cons n ns ih =>
    obtain ⟨hn, hns⟩ := nodup_cons.mp hns
    obtain ⟨x, hx⟩ := hheld n (by simp)
    have hrest := ih (h.retire hx fun y m => Iff.rfl) hns ?_ ?_
    · rwa [reverse_cons, append_assoc]
    · intro m hm
      obtain ⟨y, hy⟩ := hheld m (by simp [hm])
      refine ⟨y, hy, ?_⟩
      rintro rfl
      exact hn hm
    · intro y m
      rw [hiff, mem_cons, not_or, and_assoc]

theorem transfer (hunique : ∀ y z m, holds' y m → holds' z m → y = z)
    (hiff : ∀ m, (∃ y, holds' y m) ↔ ∃ y, holds y m) : Ledger holds' next returned where
  issued y m hy := by
    obtain ⟨z, hz⟩ := (hiff m).mp ⟨y, hy⟩
    exact h.issued z m hz
  kept y m hy := by
    obtain ⟨z, hz⟩ := (hiff m).mp ⟨y, hy⟩
    exact h.kept z m hz
  unique := hunique
  accounted m hm hreturned := (hiff m).mpr (h.accounted m hm hreturned)
  returned_lt := h.returned_lt
  returned_once := h.returned_once

theorem settled (hnone : ∀ x n, ¬holds x n) : returned.Perm (range next) := by
  refine (perm_ext_iff_of_nodup h.returned_once nodup_range).mpr fun m => ?_
  rw [mem_range]
  refine ⟨h.returned_lt m, fun hm => ?_⟩
  by_contra hreturned
  obtain ⟨x, hx⟩ := h.accounted m hm hreturned
  exact hnone x m hx

end

end Ledger

/-! Holders of at most one token each. -/

abbrev Single {α : Type*} (holder : α → Option ℕ) (x : α) (n : ℕ) : Prop := holder x = some n

namespace Ledger

variable {α : Type*} {holder holder' : α → Option ℕ} {next n : ℕ} {returned : List ℕ} {x y : α}

section

variable (h : Ledger (Single holder) next returned)
include h

theorem congr_single (heq : ∀ x, holder' x = holder x) : Ledger (Single holder') next returned :=
  h.congr fun x n => by rw [Single, Single, heq]

theorem issue_single (hnone : holder x = none) (hx : holder' x = some next)
    (hframe : ∀ z, z ≠ x → holder' z = holder z) : Ledger (Single holder') (next + 1) returned := by
  refine h.issue (x := x) fun z m => ?_
  by_cases hzx : z = x
  case pos => simp [Single, hzx, hx, hnone, eq_comm]
  case neg => simp [Single, hzx, hframe z hzx]

theorem retire_single (hn : holder x = some n) (hx : holder' x = none)
    (hframe : ∀ z, z ≠ x → holder' z = holder z) :
    Ledger (Single holder') next (n :: returned) := by
  refine h.retire hn fun z m => ?_
  by_cases hzx : z = x
  case pos => simp [Single, hzx, hx, hn, eq_comm]
  case neg =>
    rw [Single, Single, hframe z hzx]
    refine ⟨fun hz => ⟨hz, ?_⟩, fun hz => hz.1⟩
    rintro rfl
    exact hzx (h.unique z x m hz hn)

theorem transfer_single (hxy : x ≠ y) (hnone : holder x = none) (hx : holder' x = holder y)
    (hy : holder' y = none) (hframe : ∀ z, z ≠ x → z ≠ y → holder' z = holder z) :
    Ledger (Single holder') next returned := by
  have hback (z : α) (m : ℕ) (hz : holder' z = some m) :
      z = x ∧ holder y = some m ∨ z ≠ y ∧ holder z = some m := by
    by_cases hzx : z = x
    case pos => exact .inl ⟨hzx, by rw [← hx, ← hzx, hz]⟩
    case neg =>
      have hzy : z ≠ y := by
        rintro rfl
        rw [hy] at hz
        cases hz
      exact .inr ⟨hzy, by rw [← hframe z hzx hzy, hz]⟩
  refine h.transfer ?_ ?_
  case refine_1 =>
    intro z t m hz ht
    obtain ⟨rfl, hz'⟩ | ⟨hzy, hz'⟩ := hback z m hz
    · obtain ⟨rfl, -⟩ | ⟨hty, ht'⟩ := hback t m ht
      · rfl
      · exact absurd (h.unique t y m ht' hz') hty
    · obtain ⟨-, ht'⟩ | ⟨-, ht'⟩ := hback t m ht
      · exact absurd (h.unique z y m hz' ht') hzy
      · exact h.unique z t m hz' ht'
  case refine_2 =>
    intro m
    constructor
    · rintro ⟨z, hz⟩
      obtain ⟨-, hz'⟩ | ⟨-, hz'⟩ := hback z m hz
      · exact ⟨y, hz'⟩
      · exact ⟨z, hz'⟩
    · rintro ⟨z, hz⟩
      by_cases hzy : z = y
      case pos => exact ⟨x, by rw [Single, hx, ← hzy, hz]⟩
      case neg =>
        refine ⟨z, ?_⟩
        rw [Single, hframe z ?_ hzy, hz]
        rintro rfl
        rw [Single, hnone] at hz
        cases hz

end

end Ledger

end Equilibrium.Library
