import Equilibrium.Strings.BaseStringRuns
import Mathlib.Order.Bounds.Basic
import Mathlib.Data.List.Infix

/-! The searches of `BasicBaseString` in `base/strings/base_string.h`. A read outside a string
and its terminator gives `none`. -/

namespace Equilibrium.BaseString

open Library StringStorage List Option Set

section Search

variable {w : ℕ}

def npos : ℕ := kSizeMax

/-- The characters of a string, which have a terminator behind them. -/
structure Text (w : ℕ) where
  chars : List (TChar w)
  length_le : chars.length ≤ kMaxCapacity w

namespace Text

def size (t : Text w) : ℕ := t.chars.length

def cells (t : Text w) : List (TChar w) := t.chars ++ [0]

def read (t : Text w) (i n : ℕ) : Option (List (TChar w)) := ArrayWrite.read t.cells i n

def countStringLength (t : Text w) : Option ℕ :=
  if t.cells.contains 0 then some (t.cells.takeWhile (· ≠ 0)).length else none

/-- A loop over the `n` positions from `i` on. -/
def scanUp (hit : ℕ → Option Bool) (last i : ℕ) : ℕ → Option ℕ
  | 0 => some last
  | n + 1 => (hit i).bind fun found => if found then some i else scanUp hit last (i + 1) n

/-- A loop down to position zero. The argument is the position plus one, zero where the
position has wrapped. -/
def scanDown (hit : ℕ → Option Bool) : ℕ → Option ℕ
  | 0 => some npos
  | i + 1 => (hit i).bind fun found => if found then some i else scanDown hit i

def isAt (t : Text w) (c : TChar w) (i : ℕ) : Option Bool := t.cells[i]?.map (· = c)

/-- `base::find` in the `n` characters from `first` on. -/
def baseFind (t : Text w) (c : TChar w) (first n : ℕ) : Option ℕ :=
  scanUp (t.isAt c) (first + n) first n

/-- Whether `MemCompare` of `n` characters at `i` and those of `s` gives zero. -/
def memEqual (t s : Text w) (n i : ℕ) : Option Bool := do
  let xs ← t.read i n
  let ys ← s.read 0 n
  return xs = ys

def findChar (t : Text w) (c : TChar w) (pos : ℕ) : Option ℕ :=
  if pos ≥ t.size then some npos
  else do
    let result ← t.baseFind c pos (t.size - pos)
    return if result = t.size then npos else result

def findCStr (t s : Text w) (pos : ℕ) : Option ℕ := do
  let cur := t.size
  let sLen ← s.countStringLength
  if sLen = 0 then some (if pos ≤ cur then pos else npos)
  else if sLen > cur then some npos
  else if pos > cur - sLen then some npos
  else scanUp (t.memEqual s sLen) npos pos (cur - sLen + 1 - pos)

def find (t s : Text w) (pos : ℕ) : Option ℕ := t.findCStr s pos

/-- Whether `base::find` gives an element of the first `n` characters of the set. -/
def memberAt (t set : Text w) (n i : ℕ) : Option Bool := do
  let c ← t.cells[i]?
  let result ← set.baseFind c 0 n
  return result ≠ n

def findFirstOf (t set : Text w) (pos : ℕ) : Option ℕ := do
  let setLen ← set.countStringLength
  scanUp (t.memberAt set setLen) npos pos (t.size - pos)

def findLastOfChar (t : Text w) (c : TChar w) (pos : ℕ) : Option ℕ :=
  let currentSize := t.size
  if currentSize = 0 then some npos
  else
    let searchEnd := if pos = npos ∨ pos ≥ currentSize then currentSize - 1 else pos
    scanDown (t.isAt c) (searchEnd + 1)

/-- `s_len` is `npos` by default. -/
def findLastOf (t s : Text w) (pos sLen : ℕ) : Option ℕ :=
  let currentSize := t.size
  if currentSize = 0 ∨ sLen = 0 then some npos
  else
    let pos := if pos = npos ∨ pos ≥ currentSize then currentSize - 1 else pos
    scanDown (t.memberAt s sLen) (pos + 1)

def rfindChar (t : Text w) (c : TChar w) (pos : ℕ) : Option ℕ := t.findLastOfChar c pos

def rfindCStr (t s : Text w) (pos : ℕ) : Option ℕ := do
  let cur := t.size
  let sLen ← s.countStringLength
  if sLen = 0 then some (if pos < cur then pos else cur)
  else if sLen > cur then some npos
  else
    let i := if pos = npos ∨ pos > cur - sLen then cur - sLen else pos
    scanDown (t.memEqual s sLen) (i + 1)

def rfind (t s : Text w) (pos : ℕ) : Option ℕ := t.rfindCStr s pos

end Text

/-- The calls that look for a string or a character in a string. -/
inductive Search (w : ℕ) where
  | findChar (c : TChar w) (pos : ℕ)
  | find (pos : ℕ)
  | findFirstOf (pos : ℕ)
  | rfindChar (c : TChar w) (pos : ℕ)
  | rfind (pos : ℕ)
  | findLastOfChar (c : TChar w) (pos : ℕ)
  /-- with the default count -/
  | findLastOf (pos : ℕ)
  /-- with the size of the set -/
  | findLastOfCount (pos : ℕ)

def Search.run (t s : Text w) : Search w → Option ℕ
  | .findChar c pos => t.findChar c pos
  | .find pos => t.find s pos
  | .findFirstOf pos => t.findFirstOf s pos
  | .rfindChar c pos => t.rfindChar c pos
  | .rfind pos => t.rfind s pos
  | .findLastOfChar c pos => t.findLastOfChar c pos
  | .findLastOf pos => t.findLastOf s pos npos
  | .findLastOfCount pos => t.findLastOf s pos s.size

def First {α : Type} [Preorder α] (S : Set α) : Option α → Prop
  | some r => IsLeast S r
  | none => S = ∅

def Last {α : Type} [Preorder α] (S : Set α) : Option α → Prop
  | some r => IsGreatest S r
  | none => S = ∅

def OccursAt (s t : List (TChar w)) (i : ℕ) : Prop := i ≤ t.length ∧ s <+: t.drop i

def MemberAt (s t : List (TChar w)) (i : ℕ) : Prop := ∃ c ∈ s, t[i]? = some c

/-- What the call has to find in `t`. -/
def Search.Target (s t : List (TChar w)) : Search w → ℕ → Prop
  | .findChar c _ | .rfindChar c _ | .findLastOfChar c _ => fun i => t[i]? = some c
  | .find _ | .rfind _ => OccursAt s t
  | .findFirstOf _ | .findLastOf _ | .findLastOfCount _ => MemberAt s t

def Search.Reference (s t : List (TChar w)) (call : Search w) : Option ℕ → Prop :=
  match call with
  | .findChar _ pos | .find pos | .findFirstOf pos => First {i | pos ≤ i ∧ call.Target s t i}
  | .rfindChar _ pos | .rfind pos | .findLastOfChar _ pos | .findLastOf pos
  | .findLastOfCount pos => Last {i | i ≤ pos ∧ call.Target s t i}

def Search.Finds (t s : Text w) (call : Search w) : Prop :=
  ∃ o, call.run t s = some (o.getD npos) ∧ call.Reference s.chars t.chars o

def cstr (s : List (TChar w)) : List (TChar w) := s.takeWhile (· ≠ 0)

def Search.Fits (s t : List (TChar w)) : Search w → Prop
  | .find pos => ∀ i, pos ≤ i → OccursAt (cstr s) t i → ∃ k, pos ≤ k ∧ k ≤ i ∧ OccursAt s t k
  | .rfind pos => ∀ i, i ≤ pos → OccursAt (cstr s) t i → ∃ k, i ≤ k ∧ k ≤ pos ∧ OccursAt s t k
  | .findFirstOf pos => ∀ i, pos ≤ i → MemberAt s t i →
      ∃ k, pos ≤ k ∧ k ≤ i ∧ MemberAt (cstr s) t k
  | .findLastOf pos => t = [] ∨ MemberAt s t (min pos (t.length - 1))
  | _ => True

end Search

section Positions

variable {α : Type} [PartialOrder α] {S T : Set α} {o : Option α}

theorem First.congr_iff (h : First S o) :
    First T o ↔ (∀ i ∈ S, ∃ k ∈ T, k ≤ i) ∧ ∀ i ∈ T, ∃ k ∈ S, k ≤ i := by
  cases o with
  | none =>
    have hempty : S = ∅ := h
    constructor
    · intro hT
      have hT : T = ∅ := hT
      rw [hempty, hT]
      exact ⟨fun _ hi => hi.elim, fun _ hi => hi.elim⟩
    · rintro ⟨-, hTS⟩
      refine eq_empty_iff_forall_notMem.mpr fun i hi => ?_
      obtain ⟨k, hk, -⟩ := hTS i hi
      rw [hempty] at hk
      exact hk
  | some r =>
    obtain ⟨hr, hleast⟩ : IsLeast S r := h
    constructor
    · rintro ⟨hr', hleast'⟩
      exact ⟨fun i hi => ⟨r, hr', hleast hi⟩, fun i hi => ⟨r, hr, hleast' hi⟩⟩
    · rintro ⟨hST, hTS⟩
      have hbound : r ∈ lowerBounds T := by
        intro i hi
        obtain ⟨k, hk, hki⟩ := hTS i hi
        exact (hleast hk).trans hki
      obtain ⟨k, hk, hkr⟩ := hST r hr
      have heq : k = r := le_antisymm hkr (hbound hk)
      exact ⟨heq ▸ hk, hbound⟩

theorem First.mem {r : α} (h : First S o) (hr : o = some r) : r ∈ S := by
  rw [hr] at h
  exact h.1

theorem Last.mem {r : α} (h : Last S o) (hr : o = some r) : r ∈ S := by
  rw [hr] at h
  exact h.1

theorem last_iff_first : Last S o ↔
    First (preimage OrderDual.ofDual S) (o.map OrderDual.toDual) := by
  cases o with
  | none => exact Iff.rfl
  | some r => exact Iff.rfl

theorem First.narrow_iff {P Q : α → Prop} {a : α} (h : First {i | a ≤ i ∧ P i} o)
    (hQP : ∀ i, Q i → P i) :
    First {i | a ≤ i ∧ Q i} o ↔ ∀ i, a ≤ i → P i → ∃ k, a ≤ k ∧ k ≤ i ∧ Q k := by
  refine h.congr_iff.trans ⟨?_, fun hall => ⟨?_, ?_⟩⟩
  · rintro ⟨hless, -⟩ i hi hP
    obtain ⟨k, ⟨hk, hQ⟩, hki⟩ := hless i ⟨hi, hP⟩
    exact ⟨k, hk, hki, hQ⟩
  · rintro i ⟨hi, hP⟩
    obtain ⟨k, hk, hki, hQ⟩ := hall i hi hP
    exact ⟨k, ⟨hk, hQ⟩, hki⟩
  · rintro i ⟨hi, hQ⟩
    exact ⟨i, ⟨hi, hQP i hQ⟩, le_refl i⟩

theorem Last.narrow_iff {P Q : α → Prop} {a : α} (h : Last {i | i ≤ a ∧ P i} o)
    (hQP : ∀ i, Q i → P i) :
    Last {i | i ≤ a ∧ Q i} o ↔ ∀ i, i ≤ a → P i → ∃ k, i ≤ k ∧ k ≤ a ∧ Q k := by
  rw [last_iff_first] at h ⊢
  refine (First.narrow_iff h hQP).trans ?_
  constructor
  · intro hall i hi hP
    obtain ⟨k, hk, hki, hQ⟩ := hall i hi hP
    exact ⟨k, hki, hk, hQ⟩
  · intro hall i hi hP
    obtain ⟨k, hki, hk, hQ⟩ := hall i hi hP
    exact ⟨k, hk, hki, hQ⟩

theorem eq_of_getD_eq {o o' : Option ℕ} {d : ℕ} (hget : o.getD d = o'.getD d)
    (ho : ∀ r, o = some r → r < d) (ho' : ∀ r, o' = some r → r < d) : o = o' := by
  cases o with
  | none =>
    cases o' with
    | none => rfl
    | some r' => exact absurd hget.symm (Nat.ne_of_lt (ho' r' rfl))
  | some r =>
    cases o' with
    | none => exact absurd hget (Nat.ne_of_lt (ho r rfl))
    | some r' => exact congrArg some hget

end Positions

section Scans

variable {hit : ℕ → Option Bool} {P : ℕ → Prop} {last i k n : ℕ}

theorem scanUp_first (hhit : ∀ k, i ≤ k → k < i + n → ∃ b, hit k = some b ∧ (b = true ↔ P k))
    (hend : ∀ k, i ≤ k → P k → k < i + n) :
    ∃ o, Text.scanUp hit last i n = some (o.getD last) ∧ First {k | i ≤ k ∧ P k} o := by
  induction n generalizing i with
  | zero =>
    refine ⟨none, rfl, eq_empty_iff_forall_notMem.mpr ?_⟩
    rintro k ⟨hk, hP⟩
    have hlt := hend k hk hP
    omega
  | succ n ih =>
    obtain ⟨b, hb, hbP⟩ := hhit i (le_refl i) (by omega)
    cases b with
    | true =>
      refine ⟨some i, by rw [Text.scanUp, hb]; rfl, ⟨le_refl i, hbP.mp rfl⟩, ?_⟩
      rintro k ⟨hk, -⟩
      exact hk
    | false =>
      have hnot : ¬ P i := fun hP => Bool.noConfusion (hbP.mpr hP)
      obtain ⟨o, ho, hfirst⟩ := ih (i := i + 1) (fun k hk hlt => hhit k (by omega) (by omega))
        (fun k hk hP => by have hlt := hend k (by omega) hP; omega)
      have hset : {k | i ≤ k ∧ P k} = {k | i + 1 ≤ k ∧ P k} := by
        ext k
        constructor
        · rintro ⟨hk, hP⟩
          have hne : k ≠ i := fun heq => hnot (heq ▸ hP)
          exact ⟨by omega, hP⟩
        · rintro ⟨hk, hP⟩
          exact ⟨by omega, hP⟩
      refine ⟨o, ?_, ?_⟩
      · rw [Text.scanUp, hb]
        exact ho
      · rw [hset]
        exact hfirst

theorem scanDown_last (hhit : ∀ k, k < n → ∃ b, hit k = some b ∧ (b = true ↔ P k)) :
    ∃ o, Text.scanDown hit n = some (o.getD npos) ∧ Last {k | k < n ∧ P k} o := by
  induction n with
  | zero =>
    refine ⟨none, rfl, eq_empty_iff_forall_notMem.mpr ?_⟩
    rintro k ⟨hk, -⟩
    omega
  | succ n ih =>
    obtain ⟨b, hb, hbP⟩ := hhit n (by omega)
    cases b with
    | true =>
      refine ⟨some n, by rw [Text.scanDown, hb]; rfl, ⟨Nat.lt_succ_self n, hbP.mp rfl⟩, ?_⟩
      rintro k ⟨hk, -⟩
      exact Nat.lt_succ_iff.mp hk
    | false =>
      have hnot : ¬ P n := fun hP => Bool.noConfusion (hbP.mpr hP)
      obtain ⟨o, ho, hlast⟩ := ih fun k hk => hhit k (by omega)
      have hset : {k | k < n + 1 ∧ P k} = {k | k < n ∧ P k} := by
        ext k
        constructor
        · rintro ⟨hk, hP⟩
          have hne : k ≠ n := fun heq => hnot (heq ▸ hP)
          exact ⟨by omega, hP⟩
        · rintro ⟨hk, hP⟩
          exact ⟨by omega, hP⟩
      refine ⟨o, ?_, ?_⟩
      · rw [Text.scanDown, hb]
        exact ho
      · rw [hset]
        exact hlast

end Scans

section Reads

variable {w : ℕ} {t s : Text w} {c : TChar w} {first i k n : ℕ}

theorem Text.length_cells (t : Text w) : t.cells.length = t.size + 1 := length_append

theorem Text.size_lt (t : Text w) : t.size + 1 < npos := by
  have hmax := kMaxCapacity_lt w
  have hle := t.length_le
  unfold npos kSizeMax Text.size
  omega

theorem Text.cells_of_lt (h : i < t.size) : t.cells[i]? = t.chars[i]? :=
  getElem?_append_left h

theorem Text.countStringLength_eq (s : Text w) :
    s.countStringLength = some (cstr s.chars).length := by
  have hmem : s.cells.contains 0 = true :=
    contains_iff_mem.mpr mem_concat_self
  have htake : ∀ l : List (TChar w), (l ++ [0]).takeWhile (· ≠ 0) = cstr l := by
    intro l
    induction l with
    | nil => simp [cstr]
    | cons x l ih => rw [cstr, cons_append, takeWhile_cons, takeWhile_cons, ih]; rfl
  rw [Text.countStringLength, if_pos hmem, Text.cells, htake]

theorem prefix_cstr (l : List (TChar w)) : cstr l <+: l := takeWhile_prefix _

theorem take_cstr (l : List (TChar w)) : l.take (cstr l).length = cstr l :=
  (prefix_iff_eq_take.mp (prefix_cstr l)).symm

theorem isAt_iff (h : i ≤ t.size) :
    ∃ b, t.isAt c i = some b ∧ (b = true ↔ t.cells[i]? = some c) := by
  obtain ⟨d, hd⟩ : ∃ d, t.cells[i]? = some d :=
    ⟨_, getElem?_eq_getElem (by rw [Text.length_cells]; omega)⟩
  refine ⟨decide (d = c), by rw [Text.isAt, hd]; rfl, ?_⟩
  rw [decide_eq_true_iff, hd, some_inj]

theorem Text.baseFind_first (c : TChar w) (h : first + n ≤ t.size) :
    ∃ o, t.baseFind c first n = some (o.getD (first + n)) ∧
      First {k | first ≤ k ∧ k < first + n ∧ t.cells[k]? = some c} o := by
  refine scanUp_first (fun k _ hlt => ?_) fun k _ hk => hk.1
  obtain ⟨b, hb, hiff⟩ := isAt_iff (t := t) (i := k) (by omega)
  exact ⟨b, hb, hiff.trans (and_iff_right hlt).symm⟩

theorem memberAt_iff (hc : t.chars[i]? = some c) {l : List (TChar w)} :
    MemberAt l t.chars i ↔ c ∈ l := by
  rw [MemberAt, hc]
  constructor
  · rintro ⟨d, hd, heq⟩
    rw [some_inj.mp heq]
    exact hd
  · intro hmem
    exact ⟨c, hmem, rfl⟩

theorem memberAt_take (hn : n ≤ s.size) (hi : i < t.size) :
    ∃ b, t.memberAt s n i = some b ∧ (b = true ↔ MemberAt (s.chars.take n) t.chars i) := by
  obtain ⟨c, hc⟩ : ∃ c, t.chars[i]? = some c := ⟨_, getElem?_eq_getElem hi⟩
  have hread : t.cells[i]? = some c := (Text.cells_of_lt hi).trans hc
  obtain ⟨o, ho, hfirst⟩ := s.baseFind_first c ((Nat.zero_add n).trans_le hn)
  rw [Nat.zero_add] at ho hfirst
  have hrun : t.memberAt s n i = some (decide (o.getD n ≠ n)) := by
    rw [Text.memberAt, hread]
    simp only [bind_eq_bind, bind_some, ho]
    rfl
  refine ⟨_, hrun, ?_⟩
  have hcells : ∀ k, k < n → s.cells[k]? = (s.chars.take n)[k]? := by
    intro k hk
    rw [Text.cells_of_lt (by omega), getElem?_take_of_lt hk]
  rw [decide_eq_true_iff, memberAt_iff hc, mem_iff_getElem?]
  cases o with
  | none =>
    have hempty : {k | 0 ≤ k ∧ k < n ∧ s.cells[k]? = some c} = ∅ := hfirst
    refine iff_of_false (fun hne => hne rfl) ?_
    rintro ⟨k, hk⟩
    have hlt : k < n := by
      have hlength := (List.getElem?_eq_some_iff.mp hk).1
      rw [length_take] at hlength
      omega
    have hmem : k ∈ {k | 0 ≤ k ∧ k < n ∧ s.cells[k]? = some c} :=
      ⟨Nat.zero_le k, hlt, (hcells k hlt).trans hk⟩
    rw [hempty] at hmem
    exact hmem
  | some r =>
    obtain ⟨⟨-, hr, hread'⟩, -⟩ := hfirst
    exact iff_of_true (Nat.ne_of_lt hr) ⟨r, (hcells r hr).symm.trans hread'⟩

theorem memEqual_iff (hn : n ≤ s.size) (hi : i + n ≤ t.size) :
    ∃ b, t.memEqual s n i = some b ∧ (b = true ↔ OccursAt (s.chars.take n) t.chars i) := by
  have hread : ∀ (u : Text w) k, k + n ≤ u.size → u.read k n = some ((u.chars.drop k).take n) := by
    intro u k hk
    rw [Text.read, ArrayWrite.read, if_pos (by rw [Text.length_cells]; omega), Text.cells,
      drop_append_of_le_length (by unfold Text.size at hk; omega),
      take_append_of_le_length (by rw [length_drop]; unfold Text.size at hk; omega)]
  have hrun : t.memEqual s n i = some (decide ((t.chars.drop i).take n = s.chars.take n)) := by
    rw [Text.memEqual, hread t i hi, hread s 0 (by omega)]
    rfl
  refine ⟨_, hrun, ?_⟩
  have hlength : (s.chars.take n).length = n := length_take_of_le hn
  rw [decide_eq_true_iff, OccursAt, prefix_iff_eq_take, hlength, eq_comm]
  exact (and_iff_right (by unfold Text.size at hi; omega)).symm

theorem OccursAt.add_length_le {l u : List (TChar w)} (h : OccursAt l u i) :
    i + l.length ≤ u.length := by
  obtain ⟨hi, hprefix⟩ := h
  have hlength := hprefix.length_le
  rw [length_drop] at hlength
  omega

theorem MemberAt.lt_length {l u : List (TChar w)} (h : MemberAt l u i) : i < u.length := by
  obtain ⟨c, -, hc⟩ := h
  exact (List.getElem?_eq_some_iff.mp hc).1

end Reads

section Searches

variable {w : ℕ} (t s : Text w) (c : TChar w) (pos : ℕ)

theorem findChar_first : ∃ o, t.findChar c pos = some (o.getD npos) ∧
    First {i | pos ≤ i ∧ t.chars[i]? = some c} o := by
  have hlt : ∀ i, t.chars[i]? = some c → i < t.size := fun i hi =>
    (List.getElem?_eq_some_iff.mp hi).1
  by_cases hpos : pos ≥ t.size
  · refine ⟨none, if_pos hpos, eq_empty_iff_forall_notMem.mpr ?_⟩
    rintro i ⟨hi, hc⟩
    have hbound := hlt i hc
    omega
  · have hlast : pos + (t.size - pos) = t.size := by omega
    obtain ⟨o, ho, hfirst⟩ := t.baseFind_first c (Nat.le_of_eq hlast)
    rw [hlast] at ho hfirst
    have hset : {k | pos ≤ k ∧ k < t.size ∧ t.cells[k]? = some c} =
        {i | pos ≤ i ∧ t.chars[i]? = some c} := by
      ext k
      constructor
      · rintro ⟨hk, hsize, hc⟩
        exact ⟨hk, (Text.cells_of_lt hsize).symm.trans hc⟩
      · rintro ⟨hk, hc⟩
        exact ⟨hk, hlt k hc, (Text.cells_of_lt (hlt k hc)).trans hc⟩
    refine ⟨o, ?_, hset ▸ hfirst⟩
    rw [Text.findChar, if_neg hpos, ho]
    cases o with
    | none => exact congrArg some (if_pos rfl)
    | some r =>
      obtain ⟨⟨-, hr, -⟩, -⟩ :=
        hfirst
      exact congrArg some (if_neg (Nat.ne_of_lt hr))

theorem find_first : ∃ o, t.find s pos = some (o.getD npos) ∧
    First {i | pos ≤ i ∧ OccursAt (cstr s.chars) t.chars i} o := by
  have hle : (cstr s.chars).length ≤ s.size := (prefix_cstr s.chars).length_le
  rw [Text.find, Text.findCStr, s.countStringLength_eq]
  simp only [bind_eq_bind, bind_some]
  by_cases hzero : (cstr s.chars).length = 0
  · rw [length_eq_zero_iff.mp hzero]
    by_cases hpos : pos ≤ t.size
    · refine ⟨some pos, congrArg some (if_pos hpos), ⟨le_refl pos, hpos, nil_prefix⟩, ?_⟩
      rintro i ⟨hi, -⟩
      exact hi
    · refine ⟨none, congrArg some (if_neg hpos), eq_empty_iff_forall_notMem.mpr ?_⟩
      rintro i ⟨hi, hi', -⟩
      exact hpos (hi.trans hi')
  · rw [if_neg hzero]
    have hnone : ¬ (pos + (cstr s.chars).length ≤ t.size) →
        First {i | pos ≤ i ∧ OccursAt (cstr s.chars) t.chars i} none := by
      intro hshort
      refine eq_empty_iff_forall_notMem.mpr ?_
      rintro i ⟨hi, hoccurs⟩
      have hbound : i + _ ≤ t.size := hoccurs.add_length_le
      omega
    by_cases hcur : (cstr s.chars).length > t.size
    · rw [if_pos hcur]
      exact ⟨none, rfl, hnone (by omega)⟩
    · rw [if_neg hcur]
      by_cases hpos : pos > t.size - (cstr s.chars).length
      · rw [if_pos hpos]
        exact ⟨none, rfl, hnone (by omega)⟩
      · rw [if_neg hpos]
        refine scanUp_first (fun k _ hk => ?_) fun k _ hoccurs => ?_
        · have hequal := memEqual_iff hle (t := t) (i := k) (by omega)
          rw [take_cstr] at hequal
          exact hequal
        · have hbound : k + _ ≤ t.size := hoccurs.add_length_le
          omega

theorem findFirstOf_first : ∃ o, t.findFirstOf s pos = some (o.getD npos) ∧
    First {i | pos ≤ i ∧ MemberAt (cstr s.chars) t.chars i} o := by
  have hle : (cstr s.chars).length ≤ s.size := (prefix_cstr s.chars).length_le
  rw [Text.findFirstOf, s.countStringLength_eq]
  simp only [bind_eq_bind]
  refine scanUp_first (fun k _ hk => ?_) fun k hpos hmember => ?_
  · have hmember := memberAt_take hle (t := t) (i := k) (by omega)
    rw [take_cstr] at hmember
    exact hmember
  · have hbound : k < t.size := hmember.lt_length
    omega

theorem clamp_set {P : ℕ → Prop} {m : ℕ} (hP : ∀ i, P i → i ≤ m) :
    {i | i < min pos m + 1 ∧ P i} = {i | i ≤ pos ∧ P i} := by
  ext i
  constructor
  · rintro ⟨hi, hPi⟩
    exact ⟨by omega, hPi⟩
  · rintro ⟨hi, hPi⟩
    have hm := hP i hPi
    exact ⟨by omega, hPi⟩

theorem clamp_eq (hsize : t.size ≠ 0) :
    (if pos = npos ∨ pos ≥ t.size then t.size - 1 else pos) = min pos (t.size - 1) := by
  have hlt := t.size_lt
  have hpos := Nat.pos_of_ne_zero hsize
  split <;> omega

theorem findLastOfChar_last : ∃ o, t.findLastOfChar c pos = some (o.getD npos) ∧
    Last {i | i ≤ pos ∧ t.chars[i]? = some c} o := by
  have hlt : ∀ i, t.chars[i]? = some c → i < t.size := fun i hi =>
    (List.getElem?_eq_some_iff.mp hi).1
  by_cases hsize : t.size = 0
  · refine ⟨none, if_pos hsize, eq_empty_iff_forall_notMem.mpr ?_⟩
    rintro i ⟨-, hc⟩
    have hbound := hlt i hc
    omega
  · rw [← clamp_set pos fun i hc => Nat.le_sub_one_of_lt (hlt i hc)]
    simp only [Text.findLastOfChar, if_neg hsize, clamp_eq t pos hsize]
    refine scanDown_last fun k hk => ?_
    obtain ⟨b, hb, hiff⟩ := isAt_iff (t := t) (i := k) (by omega)
    rw [Text.cells_of_lt (by omega)] at hiff
    exact ⟨b, hb, hiff⟩

theorem rfind_last : ∃ o, t.rfind s pos = some (o.getD npos) ∧
    Last {i | i ≤ pos ∧ OccursAt (cstr s.chars) t.chars i} o := by
  have hle : (cstr s.chars).length ≤ s.size := (prefix_cstr s.chars).length_le
  have hlt := t.size_lt
  rw [Text.rfind, Text.rfindCStr, s.countStringLength_eq]
  simp only [bind_eq_bind, bind_some]
  by_cases hzero : (cstr s.chars).length = 0
  · rw [length_eq_zero_iff.mp hzero]
    have hmin : (if pos < t.size then pos else t.size) = min pos t.size := by split <;> omega
    refine ⟨some (min pos t.size), congrArg some hmin, ⟨Nat.min_le_left _ _,
      Nat.min_le_right _ _, nil_prefix⟩, ?_⟩
    rintro i ⟨hi, hi', -⟩
    exact Nat.le_min.mpr ⟨hi, hi'⟩
  · rw [if_neg hzero]
    by_cases hcur : (cstr s.chars).length > t.size
    · rw [if_pos hcur]
      refine ⟨none, rfl, eq_empty_iff_forall_notMem.mpr ?_⟩
      rintro i ⟨-, hoccurs⟩
      have hbound : i + _ ≤ t.size := hoccurs.add_length_le
      omega
    · rw [if_neg hcur]
      have hclamp : (if pos = npos ∨ pos > t.size - (cstr s.chars).length then
          t.size - (cstr s.chars).length else pos) = min pos (t.size - (cstr s.chars).length) := by
        split <;> omega
      have hP : ∀ i, OccursAt (cstr s.chars) t.chars i → i ≤ t.size - (cstr s.chars).length := by
        intro i hoccurs
        have hbound : i + _ ≤ t.size := hoccurs.add_length_le
        omega
      rw [hclamp, ← clamp_set pos hP]
      refine scanDown_last fun k hk => ?_
      have hequal := memEqual_iff hle (t := t) (i := k) (by omega)
      rw [take_cstr] at hequal
      exact hequal

theorem findLastOf_last {n : ℕ} (hn : n ≤ s.size) : ∃ o, t.findLastOf s pos n = some (o.getD npos) ∧
      Last {i | i ≤ pos ∧ MemberAt (s.chars.take n) t.chars i} o := by
  by_cases hempty : t.size = 0 ∨ n = 0
  · refine ⟨none, if_pos hempty, eq_empty_iff_forall_notMem.mpr ?_⟩
    rintro i ⟨-, hmember⟩
    obtain hsize | rfl := hempty
    · have hbound : i < t.size := hmember.lt_length
      omega
    · obtain ⟨c, hc, -⟩ := hmember
      cases hc
  · obtain ⟨hsize, -⟩ := not_or.mp hempty
    have hP : ∀ i, MemberAt (s.chars.take n) t.chars i → i ≤ t.size - 1 := fun i hmember =>
      Nat.le_sub_one_of_lt hmember.lt_length
    rw [← clamp_set pos hP]
    simp only [Text.findLastOf, if_neg hempty, clamp_eq t pos hsize]
    exact scanDown_last fun k hk => memberAt_take hn (by omega)

end Searches

section DefaultCount

variable {w : ℕ} {t s : Text w} {c : TChar w} {hit : ℕ → Option Bool} {last i k n : ℕ}

theorem scanUp_of_hit (hk : hit k = some true) (hall : ∀ j, i ≤ j → j < k → (hit j).isSome)
    (hi : i ≤ k) (hn : k < i + n) : ∃ r, Text.scanUp hit last i n = some r ∧ r ≤ k := by
  induction n generalizing i with
  | zero => omega
  | succ n ih =>
    rw [Text.scanUp]
    obtain rfl | hlt := Nat.eq_or_lt_of_le hi
    · exact ⟨i, by rw [hk]; rfl, le_refl i⟩
    · obtain ⟨b, hb⟩ := isSome_iff_exists.mp (hall i (le_refl i) hlt)
      rw [hb]
      cases b with
      | true => exact ⟨i, rfl, hi⟩
      | false => exact ih (fun j hj => hall j (by omega)) (by omega) (by omega)

theorem scanUp_of_fault (hk : hit k = none) (hall : ∀ j, i ≤ j → j < k → hit j = some false)
    (hi : i ≤ k) (hn : k < i + n) : Text.scanUp hit last i n = none := by
  induction n generalizing i with
  | zero => omega
  | succ n ih =>
    rw [Text.scanUp]
    obtain rfl | hlt := Nat.eq_or_lt_of_le hi
    · rw [hk]
      rfl
    · rw [hall i (le_refl i) hlt]
      exact ih (fun j hj => hall j (by omega)) (by omega) (by omega)

theorem memberAt_npos (hc : t.chars[i]? = some c) :
    t.memberAt s npos i = if s.cells.contains c then some true else none := by
  have hi : i < t.size := (List.getElem?_eq_some_iff.mp hc).1
  have hread : t.cells[i]? = some c := (Text.cells_of_lt hi).trans hc
  have hsize := s.size_lt
  have hlength := s.length_cells
  have hat : ∀ j, j ≤ s.size → ∃ b, s.isAt c j = some b ∧ (b = true ↔ s.cells[j]? = some c) :=
    fun j => isAt_iff
  rw [Text.memberAt, hread]
  simp only [bind_eq_bind, bind_some, Text.baseFind]
  by_cases hmem : c ∈ s.cells
  · obtain ⟨k, hk⟩ := mem_iff_getElem?.mp hmem
    have hbound := (List.getElem?_eq_some_iff.mp hk).1
    have hhit : s.isAt c k = some true := by
      obtain ⟨b, hb, hiff⟩ := hat k (by omega)
      rw [hb, hiff.mpr hk]
    have hall : ∀ j, 0 ≤ j → j < k → (s.isAt c j).isSome := by
      intro j _ hj
      obtain ⟨b, hb, -⟩ := hat j (by omega)
      rw [hb]
      rfl
    obtain ⟨r, hr, hle⟩ : ∃ r, Text.scanUp (s.isAt c) (0 + npos) 0 npos = some r ∧ r ≤ k :=
      scanUp_of_hit hhit hall (Nat.zero_le k) (by omega)
    rw [if_pos (contains_iff_mem.mpr hmem), hr]
    exact congrArg some (decide_eq_true (by omega))
  · have hfault : s.isAt c (s.size + 1) = none := by
      rw [Text.isAt, getElem?_eq_none (Nat.le_of_eq hlength)]
      rfl
    have hall : ∀ j, 0 ≤ j → j < s.size + 1 → s.isAt c j = some false := by
      intro j _ hj
      obtain ⟨b, hb, hiff⟩ := hat j (by omega)
      have hb' : b = false := Bool.eq_false_iff.mpr fun htrue =>
        hmem (mem_iff_getElem?.mpr ⟨j, hiff.mp htrue⟩)
      rw [hb, hb']
    have hnone : Text.scanUp (s.isAt c) (0 + npos) 0 npos = none :=
      scanUp_of_fault hfault hall (Nat.zero_le _) (by omega)
    rw [if_neg fun h => hmem (contains_iff_mem.mp h), hnone]
    rfl

end DefaultCount

section Exactness

variable {w : ℕ} {t s : Text w} {call : Search w} {o : Option ℕ}

theorem OccursAt.of_prefix {l l' u : List (TChar w)} {i : ℕ} (hpre : l' <+: l)
    (h : OccursAt l u i) : OccursAt l' u i := ⟨h.1, hpre.trans h.2⟩

theorem MemberAt.of_prefix {l l' u : List (TChar w)} {i : ℕ} (hpre : l' <+: l)
    (h : MemberAt l' u i) : MemberAt l u i := by
  obtain ⟨c, hmem, hc⟩ := h
  exact ⟨c, hpre.subset hmem, hc⟩

theorem Search.target_le {i : ℕ} (h : call.Target s.chars t.chars i) : i ≤ t.size := by
  cases call with
  | findChar | rfindChar | findLastOfChar => exact Nat.le_of_lt (List.getElem?_eq_some_iff.mp h).1
  | find | rfind => exact h.1
  | findFirstOf | findLastOf | findLastOfCount => exact Nat.le_of_lt h.lt_length

theorem Search.reference_lt {r : ℕ} (h : call.Reference s.chars t.chars (some r)) : r < npos := by
  have hlt := t.size_lt
  have hle : r ≤ t.size := by
    cases call with
    | findChar | find | findFirstOf | rfindChar | rfind | findLastOfChar | findLastOf
    | findLastOfCount => exact target_le h.1.2
  omega

theorem Search.finds_iff (hrun : call.run t s = some (o.getD npos))
    (ho : ∀ r, o = some r → r ≤ t.size) : call.Finds t s ↔ call.Reference s.chars t.chars o := by
  have hlt := t.size_lt
  refine ⟨?_, fun h => ⟨o, hrun, h⟩⟩
  rintro ⟨o', hrun', h⟩
  have hget : o.getD npos = o'.getD npos := some_inj.mp (hrun.symm.trans hrun')
  have heq : o = o' := eq_of_getD_eq hget (fun r hr => by have hle := ho r hr; omega)
    fun r hr => reference_lt (hr ▸ h)
  rw [heq]
  exact h

theorem finds_find_iff (pos : ℕ) :
    (Search.find pos).Finds t s ↔ (Search.find pos).Fits s.chars t.chars := by
  obtain ⟨o, ho, hfirst⟩ := find_first t s pos
  have hrun : (Search.find pos).run t s = some (o.getD npos) := ho
  have hbound : ∀ r, o = some r → r ≤ t.size := fun r hr => (hfirst.mem hr).2.1
  rw [Search.finds_iff hrun hbound]
  exact hfirst.narrow_iff fun i hoccurs => hoccurs.of_prefix (prefix_cstr _)

theorem finds_rfind_iff (pos : ℕ) :
    (Search.rfind pos).Finds t s ↔ (Search.rfind pos).Fits s.chars t.chars := by
  obtain ⟨o, ho, hlast⟩ := rfind_last t s pos
  have hrun : (Search.rfind pos).run t s = some (o.getD npos) := ho
  have hbound : ∀ r, o = some r → r ≤ t.size := fun r hr => (hlast.mem hr).2.1
  rw [Search.finds_iff hrun hbound]
  exact hlast.narrow_iff fun i hoccurs => hoccurs.of_prefix (prefix_cstr _)

theorem finds_findFirstOf_iff (pos : ℕ) :
    (Search.findFirstOf pos).Finds t s ↔ (Search.findFirstOf pos).Fits s.chars t.chars := by
  obtain ⟨o, ho, hfirst⟩ := findFirstOf_first t s pos
  have hrun : (Search.findFirstOf pos).run t s = some (o.getD npos) := ho
  have hbound : ∀ r, o = some r → r ≤ t.size := fun r hr =>
    Nat.le_of_lt (hfirst.mem hr).2.lt_length
  rw [Search.finds_iff hrun hbound]
  refine hfirst.congr_iff.trans ⟨?_, fun h => ⟨?_, ?_⟩⟩
  · rintro ⟨-, hwhole⟩ i hi hmember
    obtain ⟨k, ⟨hk, hcut⟩, hki⟩ := hwhole i ⟨hi, hmember⟩
    exact ⟨k, hk, hki, hcut⟩
  · rintro i ⟨hi, hmember⟩
    exact ⟨i, ⟨hi, hmember.of_prefix (prefix_cstr _)⟩, le_refl i⟩
  · rintro i ⟨hi, hmember⟩
    obtain ⟨k, hk, hki, hcut⟩ := h i hi hmember
    exact ⟨k, ⟨hk, hcut⟩, hki⟩

theorem finds_findLastOf_iff (pos : ℕ) :
    (Search.findLastOf pos).Finds t s ↔ (Search.findLastOf pos).Fits s.chars t.chars := by
  by_cases hsize : t.size = 0
  · have hnil : t.chars = [] := length_eq_zero_iff.mp hsize
    refine iff_of_true ⟨none, if_pos (.inl hsize), eq_empty_iff_forall_notMem.mpr ?_⟩
      (.inl hnil)
    rintro i ⟨-, hmember⟩
    have hbound : i < t.size := hmember.lt_length
    omega
  · have hmin : min pos (t.size - 1) < t.size := by omega
    obtain ⟨c, hc⟩ : ∃ c, t.chars[min pos (t.size - 1)]? = some c :=
      ⟨_, getElem?_eq_getElem hmin⟩
    have hnil : t.chars ≠ [] := fun hnil => hsize (length_eq_zero_iff.mpr hnil)
    have hfits : (Search.findLastOf pos).Fits s.chars t.chars ↔ c ∈ s.chars :=
      (or_iff_right hnil).trans (memberAt_iff hc)
    have hrun : (Search.findLastOf pos).run t s =
        if s.cells.contains c then some (min pos (t.size - 1)) else none := by
      have hempty : ¬ (t.size = 0 ∨ npos = 0) := not_or.mpr ⟨hsize, by decide⟩
      simp only [Search.run, Text.findLastOf, if_neg hempty, clamp_eq t pos hsize,
        Text.scanDown, memberAt_npos hc]
      split <;> rfl
    rw [hfits]
    by_cases hcells : s.cells.contains c = true
    · rw [if_pos hcells] at hrun
      have hbound : ∀ r, some (min pos (t.size - 1)) = some r → r ≤ t.size := by
        intro r hr
        rw [← some_inj.mp hr]
        exact Nat.le_of_lt hmin
      have hfinds := Search.finds_iff hrun hbound
      rw [hfinds]
      constructor
      · intro hlast
        exact (memberAt_iff hc).mp hlast.1.2
      · intro hmem
        refine ⟨⟨Nat.min_le_left _ _, (memberAt_iff hc).mpr hmem⟩, ?_⟩
        rintro i ⟨hi, hmember⟩
        have hlt : i < t.size := hmember.lt_length
        omega
    · rw [if_neg hcells] at hrun
      refine iff_of_false ?_ fun hmem =>
        hcells (contains_iff_mem.mpr (mem_append_left _ hmem))
      rintro ⟨o, ho, -⟩
      rw [hrun] at ho
      cases ho

/-- A search finds the position that the lists of characters give, and reads within the
strings, exactly where the zeros of the string that is looked for make no difference, and
`find_last_of` without a count where the first position that it looks at has a character of
the set. -/
theorem finds_iff_fits (t s : Text w) (call : Search w) :
    call.Finds t s ↔ call.Fits s.chars t.chars := by
  cases call with
  | findChar c pos => exact iff_of_true (findChar_first t c pos) trivial
  | find pos => exact finds_find_iff pos
  | findFirstOf pos => exact finds_findFirstOf_iff pos
  | rfindChar c pos => exact iff_of_true (findLastOfChar_last t c pos) trivial
  | rfind pos => exact finds_rfind_iff pos
  | findLastOfChar c pos => exact iff_of_true (findLastOfChar_last t c pos) trivial
  | findLastOf pos => exact finds_findLastOf_iff pos
  | findLastOfCount pos =>
    obtain ⟨o, ho, hlast⟩ := findLastOf_last t s pos (le_refl s.size)
    rw [Text.size, take_length] at hlast
    exact iff_of_true ⟨o, ho, hlast⟩ trivial

/-- The second string is not in the first, but what is before its zero is; and with no count
the last character of the first string is looked for behind the end of the second. -/
def letters : Text 1 := ⟨[0x61, 0x62], by decide⟩

def zeroInside : Text 1 := ⟨[0x61, 0x00, 0x78], by decide⟩

theorem letters_not_found : ¬ (Search.find 0).Finds letters zeroInside ∧
    ¬ (Search.findLastOf npos).Finds letters zeroInside := by
  have hfind : (Search.find 0).run letters zeroInside = some 0 := by decide +kernel
  have hlast : (Search.findLastOf npos).run letters zeroInside = none := by decide +kernel
  constructor
  · rintro ⟨o, ho, href⟩
    cases o with
    | none => exact absurd (some_inj.mp ho) (by decide)
    | some r =>
      have hr : 0 = r := some_inj.mp ho
      obtain ⟨⟨-, hoccurs⟩, -⟩ := href
      have hlength := hoccurs.add_length_le
      exact absurd (Nat.le_trans (Nat.le_add_left 3 r) hlength) (by decide)
  · rintro ⟨o, ho, -⟩
    cases ho

end Exactness

section Storage

variable {ι : Type} [DecidableEq ι] {w : ℕ} {W : World ι (layout w)} {i : ι} {cs : List (TChar w)}
  {strings : ι → Option (List (TChar w))}

end Storage

end Equilibrium.BaseString
