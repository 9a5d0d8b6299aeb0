import Mathlib.Data.Nat.ModEq
import Mathlib.Data.List.Rotate

/-! A list kept in a ring of slots: its elements lie in consecutive slots from a start on, and go
on at the first slot behind the last. -/

namespace Equilibrium.Library.RingWindow

open List Nat

variable {α : Type} {slots xs : List α} {start n i j len : ℕ} {v : α}

/-- The `n` elements from slot `start` on. -/
def window (slots : List α) (start n : ℕ) : List α := (slots.rotate start).take n

def before (len i : ℕ) : ℕ := if i = 0 then len - 1 else i - 1

theorem length_window (hn : n ≤ slots.length) : (window slots start n).length = n := by
  rw [window, length_take, length_rotate, Nat.min_eq_left hn]

theorem getElem?_window (hi : i < n) (hn : n ≤ slots.length) :
    (window slots start n)[i]? = slots[(start + i) % slots.length]? := by
  rw [window, getElem?_take, if_pos hi, getElem?_rotate (Nat.lt_of_lt_of_le hi hn),
    Nat.add_comm]

theorem window_zero : window slots start 0 = [] := take_zero

theorem window_eq (hxs : xs.length ≤ slots.length)
    (h : ∀ i < xs.length, slots[(start + i) % slots.length]? = xs[i]?) :
    window slots start xs.length = xs := by
  refine ext_getElem? fun i => ?_
  by_cases hi : i < xs.length
  · rw [getElem?_window hi hxs, h i hi]
  · rw [getElem?_eq_none (by rw [length_window hxs]; omega),
      getElem?_eq_none (Nat.le_of_not_lt hi)]

theorem place_lt (hlen : 0 < len) : (start + i) % len < len := mod_lt _ hlen

theorem place_injective (hi : i < len) (hj : j < len)
    (h : (start + i) % len = (start + j) % len) : i = j := by
  have hmod : i % len = j % len := Nat.ModEq.add_left_cancel' start h
  rwa [mod_eq_of_lt hi, mod_eq_of_lt hj] at hmod

theorem place_next : ((start + i) % len + 1) % len = (start + (i + 1)) % len := by
  rw [mod_add_mod, Nat.add_assoc]

theorem before_lt (hi : i < len) : before len i < len := by
  unfold before
  split
  case isTrue => omega
  case isFalse => omega

theorem next_before (hi : i < len) : (before len i + 1) % len = i := by
  unfold before
  split
  case isTrue h => rw [Nat.sub_add_cancel (by omega), mod_self, h]
  case isFalse h => rw [Nat.sub_add_cancel (by omega), mod_eq_of_lt hi]

theorem before_next (hi : i < len) : before len ((i + 1) % len) = i := by
  unfold before
  by_cases hlast : i + 1 = len
  · rw [hlast, mod_self, if_pos rfl]
    omega
  · rw [mod_eq_of_lt (by omega), if_neg (succ_ne_zero i), Nat.add_sub_cancel]

theorem place_before (hstart : start < len) : (before len start + (i + 1)) % len =
    (start + i) % len := by
  have hnext := next_before hstart
  calc (before len start + (i + 1)) % len = ((before len start + 1) % len + i) % len := by
        rw [mod_add_mod, Nat.add_assoc, Nat.add_comm 1 i]
    _ = (start + i) % len := by rw [hnext]

theorem before_place (hn : 0 < n) (hlen : 0 < len) :
    before len ((start + n) % len) = (start + (n - 1)) % len := by
  have hlt : (start + (n - 1)) % len < len := place_lt hlen
  rw [← before_next hlt, place_next, Nat.sub_add_cancel hn]

theorem window_set_behind (hn : n < slots.length) :
    window (slots.set ((start + n) % slots.length) v) start (n + 1) =
      window slots start n ++ [v] := by
  have hlength : (window slots start n ++ [v]).length = n + 1 := by
    rw [length_append, length_window hn.le, length_singleton]
  rw [← hlength]
  refine window_eq ?_ fun i hi => ?_
  · rw [hlength, length_set]
    exact hn
  · rw [length_set, getElem?_set]
    split_ifs with hplace hbound
    · have heq : n = i := place_injective hn (by omega) hplace
      rw [← heq, getElem?_append_right (by rw [length_window hn.le]),
        length_window hn.le, Nat.sub_self]
      rfl
    · exact absurd (place_lt (by omega)) hbound
    · have hne : i ≠ n := fun heq => hplace (by rw [heq])
      rw [getElem?_append_left (by rw [length_window hn.le]; omega),
        getElem?_window (by omega) hn.le]

theorem window_set_before (hn : n < slots.length) (hstart : start < slots.length) :
    window (slots.set (before slots.length start) v) (before slots.length start) (n + 1) =
      v :: window slots start n := by
  have hlength : (v :: window slots start n).length = n + 1 := by
    rw [length_cons, length_window hn.le]
  have hself : (before slots.length start + 0) % slots.length = before slots.length start := by
    rw [Nat.add_zero, mod_eq_of_lt (before_lt hstart)]
  rw [← hlength]
  refine window_eq ?_ fun i hi => ?_
  · rw [hlength, length_set]
    exact hn
  · rw [length_set]
    cases i with
    | zero =>
      rw [hself, getElem?_set, if_pos rfl, if_pos (before_lt hstart)]
      rfl
    | succ i =>
      have hne : before slots.length start ≠ (before slots.length start + (i + 1)) % slots.length :=
        fun heq => succ_ne_zero i
          (place_injective (by omega) (by omega) (hself.trans heq)).symm
      rw [getElem?_set, if_neg hne, place_before hstart, getElem?_cons_succ,
        getElem?_window (by omega) hn.le]

theorem window_drop_first (hn : n ≤ slots.length) :
    window slots ((start + 1) % slots.length) (n - 1) = (window slots start n).drop 1 := by
  have hlength : ((window slots start n).drop 1).length = n - 1 := by
    rw [length_drop, length_window hn]
  rw [← hlength]
  refine window_eq (by omega) fun i hi => ?_
  rw [mod_add_mod, Nat.add_assoc, getElem?_drop, getElem?_window (by omega) hn]

theorem window_drop_last (hn : n ≤ slots.length) :
    window slots start (n - 1) = (window slots start n).dropLast := by
  rw [window, window, dropLast_eq_take, take_take, length_take, length_rotate,
    Nat.min_eq_left hn, Nat.min_eq_left (sub_le n 1)]

theorem window_set (hi : i < n) (hn : n ≤ slots.length) :
    window (slots.set ((start + i) % slots.length) v) start n = (window slots start n).set i v := by
  have hlength : ((window slots start n).set i v).length = n := by
    rw [length_set, length_window hn]
  rw [← hlength]
  refine (window_eq ?_ fun j hj => ?_).trans ?_
  · rw [hlength, length_set]
    exact hn
  · rw [hlength] at hj
    rw [length_set, getElem?_set, getElem?_set, length_window hn]
    by_cases hij : i = j
    · rw [if_pos (by rw [hij]), if_pos (place_lt (by omega)), if_pos hij, if_pos hi]
    · rw [if_neg fun h => hij (place_injective (by omega) (by omega) h), if_neg hij,
        getElem?_window hj hn]
  · rw [hlength]

theorem window_front (hxs : xs.length ≤ slots.length)
    (h : ∀ i < xs.length, slots[i]? = xs[i]?) : window slots 0 xs.length = xs :=
  window_eq hxs fun i hi => by rw [Nat.zero_add, mod_eq_of_lt (by omega), h i hi]

end Equilibrium.Library.RingWindow
