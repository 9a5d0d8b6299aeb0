import Equilibrium.Library.Interleaving
import Mathlib.Data.List.Nodup
import Mathlib.Algebra.Group.Nat.Defs

/-! The page table of `base/allocator/eq_alloc/page_table.h` and `.cc`. Each call runs under
the lock of the table and is one step. The system calls that commit and decommit pages
succeed at the address they are given. -/

namespace Equilibrium

open Nat Option

def kWordRange : ℕ := 2 ^ 64

/-- What the constructor of a page table is given and reserves: `address_space_`,
`page_size_` and `page_reserve_count_`. An entry of the metadata takes 16 bytes and keeps
its size as a `u32`. -/
structure PageLayout where
  addressSpace : ℕ
  pageSize : ℕ
  reserveCount : ℕ
  addressSpace_pos : 0 < addressSpace
  pageSize_pos : 0 < pageSize
  aligned : pageSize ∣ addressSpace
  fits : addressSpace + pageSize * reserveCount ≤ kWordRange
  metadata : 16 * reserveCount < kWordRange
  pageSize_lt : pageSize < 2 ^ 32

inductive PageFlags where
  | inUse
  | free
  deriving DecidableEq

structure PageEntry where
  flags : PageFlags
  size : ℕ
  address : ℕ

def PageEntry.available (e : PageEntry) : Bool := e.flags = .free

def PageEntry.inUse (e : PageEntry) : Bool := e.flags = .inUse

/-- A base address and the bytes from there on, as a request returns them. -/
structure Pages where
  address : ℕ
  size : ℕ
  deriving DecidableEq

structure PageTable (l : PageLayout) where
  entries : List PageEntry
  currentPageCount : ℕ

namespace PageTable

variable {l : PageLayout}

/-- `ReserveAddressSpace`. -/
def reserve (l : PageLayout) : PageTable l where
  entries := (List.range l.reserveCount).map fun i =>
    { flags := .free, size := 0, address := l.addressSpace + l.pageSize * i }
  currentPageCount := 0

def findFreePage (t : PageTable l) : Option ℕ := t.entries.findIdx? PageEntry.available

def PageEntry.take (l : PageLayout) (e : PageEntry) : PageEntry :=
  { e with flags := .inUse, size := l.pageSize % 2 ^ 32 }

def requestPage (t : PageTable l) : Option (Pages × PageTable l) :=
  match t.findFreePage with
  | none => none
  | some i => (t.entries[i]?).map fun e =>
    (⟨e.address, l.pageSize % 2 ^ 32⟩,
      { entries := t.entries.modify i (PageEntry.take l)
        currentPageCount := (t.currentPageCount + 1) % kWordRange })

def freeAt (t : PageTable l) (i : ℕ) : Bool := (t.entries[i]?).any PageEntry.available

def usedAt (t : PageTable l) (i : ℕ) : Bool := (t.entries[i]?).any PageEntry.inUse

/-- The first entry of the run at `i` that is not available. -/
def occupied (t : PageTable l) (count i : ℕ) : Option ℕ :=
  (List.range count).find? fun j => !t.freeAt (i + j)

/-- The search of `RequestPages` from `i`; every turn of the loop moves on by at least one
entry. -/
def findRun (t : PageTable l) (count : ℕ) : (fuel i : ℕ) → Option ℕ
  | 0, _ => none
  | fuel + 1, i =>
    if (i + count) % kWordRange ≤ t.entries.length then
      match t.occupied count i with
      | some j => findRun t count fuel (i + j + 1)
      | none => some i
    else none

def takeRun (l : PageLayout) (i : ℕ) : ℕ → List PageEntry → List PageEntry
  | 0, entries => entries
  | count + 1, entries => (takeRun l i count entries).modify (i + count) (PageEntry.take l)

def requestPages (count : ℕ) (t : PageTable l) : Option (Pages × PageTable l) :=
  if count = 0 then none
  else if count = 1 then t.requestPage
  else
    match t.findRun count (t.entries.length + 1) 0 with
    | none => none
    | some i => (t.entries[i]?).map fun e =>
      (⟨e.address, l.pageSize * count % kWordRange⟩,
        { entries := takeRun l i count t.entries
          currentPageCount := (t.currentPageCount + count) % kWordRange })

def findBackingPage (t : PageTable l) (address : ℕ) : Option ℕ :=
  t.entries.findIdx? fun e => e.address = address

/-- `none` where no entry backs the page, which traps. -/
def releasePage (t : PageTable l) (address : ℕ) : Option (ℕ × PageTable l) :=
  if address = 0 then some (0, t)
  else (t.findBackingPage address).map fun i =>
    (l.pageSize,
      { entries := t.entries.modify i fun e => { e with flags := .free }
        currentPageCount := (t.currentPageCount + (kWordRange - 1)) % kWordRange })

def releasePages (address : ℕ) : (count : ℕ) → PageTable l → Option (ℕ × PageTable l)
  | 0, t => some (0, t)
  | count + 1, t => (releasePages address count t).bind fun (total, t) =>
    (t.releasePage (address + l.pageSize * count)).map fun (size, t) =>
      ((total + size) % kWordRange, t)

/-! What the table hands out. -/

structure WellFormed (t : PageTable l) : Prop where
  length : t.entries.length = l.reserveCount
  address : ∀ i e, t.entries[i]? = some e → e.address = l.addressSpace + l.pageSize * i
  count : t.currentPageCount = t.entries.countP PageEntry.inUse

/-- `n` free entries in a row, from `i` on. -/
def FreeRun (t : PageTable l) (n i : ℕ) : Prop := 1 ≤ n ∧ ∀ j < n, t.freeAt (i + j) = true

/-- The first free run from `i` on. -/
structure LowestRun (t : PageTable l) (n i k : ℕ) : Prop where
  le : i ≤ k
  run : t.FreeRun n k
  lowest : ∀ m, i ≤ m → m < k → ¬ t.FreeRun n m

variable {t : PageTable l} {i : ℕ}

theorem freeAt_lt (h : t.freeAt i = true) : i < t.entries.length := by
  by_contra hge
  rw [freeAt, List.getElem?_eq_none (by omega)] at h
  cases h

theorem freeAt_eq_true : t.freeAt i = true ↔ ∃ e, t.entries[i]? = some e ∧ e.flags = .free := by
  rw [freeAt, Option.any_eq_true]
  simp [PageEntry.available]

theorem usedAt_eq_true : t.usedAt i = true ↔ ∃ e, t.entries[i]? = some e ∧ e.flags = .inUse := by
  rw [usedAt, Option.any_eq_true]
  simp [PageEntry.inUse]

theorem usedAt_of_freeAt (h : t.freeAt i = true) : t.usedAt i = false := by
  obtain ⟨e, he, hfree⟩ := freeAt_eq_true.mp h
  rw [usedAt, he]
  simp [PageEntry.inUse, hfree]

variable {n : ℕ}

theorem findRun_spec (hn : 1 ≤ n) (hle : n ≤ t.entries.length)
    (hlen : 2 * t.entries.length < kWordRange) (fuel i : ℕ) (hi : i ≤ t.entries.length)
    (hfuel : t.entries.length < fuel + i) : (∀ k, t.findRun n fuel i = some k → LowestRun t n i k) ∧
      (t.findRun n fuel i = none → ∀ m, i ≤ m → ¬ t.FreeRun n m) := by
  induction fuel generalizing i with
  | zero => omega
  | succ fuel ih =>
    have hmod : (i + n) % kWordRange = i + n := mod_eq_of_lt (by omega)
    rw [findRun]
    split
    case isFalse hout =>
      refine ⟨fun k hk => (by cases hk), fun _ m him hrun => ?_⟩
      have hlast := freeAt_lt (hrun.2 (n - 1) (by omega))
      omega
    case isTrue hin =>
      cases hocc : t.occupied n i with
      | none =>
        have hfree : t.FreeRun n i := by
          refine ⟨hn, fun j hj => ?_⟩
          have hall := List.find?_range_eq_none.mp hocc j hj
          simpa using hall
        refine ⟨fun k hk => ?_, fun h => (by cases h)⟩
        cases hk
        exact ⟨Nat.le_refl _, hfree, fun m him hmi => by omega⟩
      | some j =>
        obtain ⟨hnot, hmem, -⟩ := List.find?_range_eq_some.mp hocc
        have hj : j < n := List.mem_range.mp hmem
        have hskip : ∀ m, i ≤ m → m < i + j + 1 → ¬ t.FreeRun n m := by
          intro m him hmj hrun
          have hfree := hrun.2 (i + j - m) (by omega)
          rw [show m + (i + j - m) = i + j by omega] at hfree
          simp [hfree] at hnot
        obtain ⟨hsome, hnone⟩ := ih (i + j + 1) (by omega) (by omega)
        refine ⟨fun k hk => ?_, fun h m him hrun => ?_⟩
        · obtain ⟨hle', hrun, hlow⟩ := hsome k hk
          refine ⟨by omega, hrun, fun m him hmk => ?_⟩
          by_cases hm : m < i + j + 1
          · exact hskip m him hm
          · exact hlow m (by omega) hmk
        · by_cases hm : m < i + j + 1
          · exact hskip m him hm hrun
          · exact hnone h m (by omega) hrun

theorem countP_modify {α : Type} (p : α → Bool) (f : α → α) {entries : List α} {e : α}
    (h : entries[i]? = some e) : (entries.modify i f).countP p + (if p e then 1 else 0) =
      entries.countP p + (if p (f e) then 1 else 0) := by
  induction entries generalizing i with
  | nil => cases h
  | cons x rest ih =>
    cases i with
    | zero =>
      cases h
      rw [List.modify_zero_cons, List.countP_cons, List.countP_cons]
      omega
    | succ i =>
      rw [List.modify_succ_cons, List.countP_cons, List.countP_cons]
      have hrest := ih h
      omega

theorem getElem?_takeRun (i n m : ℕ) (entries : List PageEntry) : (takeRun l i n entries)[m]? =
      (entries[m]?).map fun e => if i ≤ m ∧ m < i + n then PageEntry.take l e else e := by
  induction n with
  | zero =>
    have hnot : ¬ (i ≤ m ∧ m < i + 0) := by omega
    simp only [takeRun, if_neg hnot, Option.map_id']
  | succ n ih =>
    rw [takeRun, List.getElem?_modify, ih]
    cases entries[m]? with
    | none => rfl
    | some e =>
      by_cases hm : i + n = m
      · have hnot : ¬ (i ≤ m ∧ m < i + n) := by omega
        have hin : i ≤ m ∧ m < i + (n + 1) := by omega
        simp only [Option.map_some, Option.map_eq_map, if_pos hm, if_neg hnot, if_pos hin]
      · have hiff : (i ≤ m ∧ m < i + (n + 1)) ↔ i ≤ m ∧ m < i + n := by omega
        simp only [Option.map_some, Option.map_eq_map, if_neg hm, hiff]

variable {k : ℕ}

theorem countP_takeRun (hfree : ∀ j < n, t.freeAt (k + j) = true) :
    (takeRun l k n t.entries).countP PageEntry.inUse = t.entries.countP PageEntry.inUse + n := by
  induction n with
  | zero => rfl
  | succ n ih =>
    obtain ⟨e, he, hflags⟩ := freeAt_eq_true.mp (hfree n (lt_succ_self n))
    have hget : (takeRun l k n t.entries)[k + n]? = some e := by
      have hnot : ¬ (k ≤ k + n ∧ k + n < k + n) := by omega
      rw [getElem?_takeRun, he]
      simp only [Option.map_some, if_neg hnot]
    have hcount := countP_modify PageEntry.inUse (PageEntry.take l) hget
    rw [ih fun j hj => hfree j (by omega)] at hcount
    have hnot : PageEntry.inUse e = false := by simp [PageEntry.inUse, hflags]
    have htaken : PageEntry.inUse (PageEntry.take l e) = true := by
      simp [PageEntry.inUse, PageEntry.take]
    rw [hnot, htaken, if_neg Bool.false_ne_true, if_pos rfl] at hcount
    rw [takeRun]
    omega

theorem length_takeRun (k n : ℕ) (entries : List PageEntry) :
    (takeRun l k n entries).length = entries.length := by
  induction n with
  | zero => rfl
  | succ n ih => rw [takeRun, List.length_modify, ih]

/-- What a request that takes the `n` entries from `k` on leaves. -/
structure Grants (t : PageTable l) (n k : ℕ) (r : Pages) (t' : PageTable l) : Prop where
  address : r.address = l.addressSpace + l.pageSize * k
  size : r.size = l.pageSize * n
  wellFormed : t'.WellFormed
  usedAt : ∀ m, t'.usedAt m = true ↔ t.usedAt m = true ∨ (k ≤ m ∧ m < k + n)

section

variable (hw : t.WellFormed)
include hw

theorem WellFormed.size_lt (hrun : t.FreeRun n k) : k + n ≤ l.reserveCount := by
  have hlast := freeAt_lt (hrun.2 (n - 1) (by have := hrun.1; omega))
  have hpos := hrun.1
  rw [hw.length] at hlast
  omega

theorem WellFormed.take (hrun : t.FreeRun n k) :
    ∃ e, t.entries[k]? = some e ∧ Grants t n k ⟨e.address, l.pageSize * n⟩
      { entries := takeRun l k n t.entries
        currentPageCount := (t.currentPageCount + n) % kWordRange } := by
  obtain ⟨e, he, -⟩ := freeAt_eq_true.mp (hrun.2 0 hrun.1)
  have hcount := countP_takeRun hrun.2
  refine ⟨e, he, hw.address k e he, rfl, ⟨?_, fun m e' he' => ?_, ?_⟩, fun m => ?_⟩
  · exact (length_takeRun k n _).trans hw.length
  · rw [getElem?_takeRun] at he'
    obtain ⟨e₀, he₀, rfl⟩ := map_eq_some_iff.mp he'
    rw [← hw.address m e₀ he₀]
    split <;> rfl
  · have hle : (takeRun l k n t.entries).countP PageEntry.inUse ≤ l.reserveCount := by
      rw [← hw.length, ← length_takeRun k n t.entries]
      exact List.countP_le_length
    have hlt := l.metadata
    rw [hw.count, ← hcount]
    exact mod_eq_of_lt (by omega)
  · simp only [PageTable.usedAt, getElem?_takeRun]
    cases hm : t.entries[m]? with
    | none =>
      have hout : ¬ (k ≤ m ∧ m < k + n) := by
        intro hin
        have hlt := freeAt_lt (hrun.2 (m - k) (by omega))
        rw [List.getElem?_eq_none_iff] at hm
        omega
      simp [hout]
    | some e₀ =>
      by_cases hin : k ≤ m ∧ m < k + n <;> simp [hin, PageEntry.inUse, PageEntry.take]

theorem requestPage_eq :
    (∀ r t', t.requestPage = some (r, t') → ∃ k, LowestRun t 1 0 k ∧ Grants t 1 k r t') ∧
      (t.requestPage = none → ∀ k, ¬ t.FreeRun 1 k) := by
  cases hfind : t.findFreePage with
  | none =>
    have hnone : t.requestPage = none := by rw [requestPage, hfind]
    refine ⟨fun r t' h => ?_, fun _ k hrun => ?_⟩
    · rw [hnone] at h
      cases h
    · obtain ⟨e, he, hfree⟩ := freeAt_eq_true.mp (hrun.2 0 (lt_succ_self 0))
      have hall := List.findIdx?_eq_none_iff.mp hfind e (List.mem_of_getElem? he)
      simp [PageEntry.available, hfree] at hall
  | some k =>
    obtain ⟨hk, havail, hlow⟩ := List.findIdx?_eq_some_iff_getElem.mp hfind
    have hfree : ∀ {m} (hm : m < t.entries.length), t.freeAt m = t.entries[m].available := by
      intro m hm
      rw [freeAt, List.getElem?_eq_getElem hm, any_some]
    have hrun : t.FreeRun 1 k := by
      refine ⟨Nat.le_refl 1, fun j hj => ?_⟩
      obtain rfl : j = 0 := by omega
      exact (hfree hk).trans havail
    obtain ⟨e, he, hgrants⟩ := hw.take hrun
    have hsize : l.pageSize % 2 ^ 32 = l.pageSize * 1 := by
      rw [mod_eq_of_lt l.pageSize_lt, Nat.mul_one]
    have hsome : t.requestPage = some (⟨e.address, l.pageSize * 1⟩,
        { entries := takeRun l k 1 t.entries
          currentPageCount := (t.currentPageCount + 1) % kWordRange }) := by
      rw [requestPage, hfind]
      simp only [he, hsize]
      rfl
    refine ⟨fun r t' h => ?_, fun h => ?_⟩
    · rw [hsome] at h
      cases h
      refine ⟨k, ⟨Nat.zero_le k, hrun, fun m _ hmk hm => ?_⟩, hgrants⟩
      have hm' := hm.2 0 (lt_succ_self 0)
      rw [hfree (by omega)] at hm'
      exact hlow m hmk hm'
    · rw [hsome] at h
      cases h

/-- `RequestPages(n)` takes the lowest run of `n` free entries, and fails if there is none. -/
theorem requestPages_eq (hn : n < kWordRange) :
    (∀ r t', t.requestPages n = some (r, t') → ∃ k, LowestRun t n 0 k ∧ Grants t n k r t') ∧
      (t.requestPages n = none → ∀ k, ¬ t.FreeRun n k) := by
  rw [requestPages]
  split
  case isTrue hzero =>
    subst hzero
    exact ⟨fun r t' h => (by cases h), fun _ k hrun => absurd hrun.1 (by omega)⟩
  case isFalse hzero =>
    split
    case isTrue hone =>
      subst hone
      exact requestPage_eq hw
    case isFalse hone =>
      have hlen : 2 * t.entries.length < kWordRange := by
        have hmeta := l.metadata
        rw [hw.length]
        omega
      by_cases hle : n ≤ t.entries.length
      case neg =>
        have hnone : t.findRun n (t.entries.length + 1) 0 = none := by
          rw [findRun, Nat.zero_add, mod_eq_of_lt hn, if_neg hle]
        rw [hnone]
        refine ⟨fun r t' h => (by cases h), fun _ k hrun => ?_⟩
        have hlast := freeAt_lt (hrun.2 (n - 1) (by omega))
        omega
      case pos =>
        obtain ⟨hsome, hnone⟩ := findRun_spec (by omega) hle hlen (t.entries.length + 1) 0
          (Nat.zero_le _) (by omega)
        cases hrun : t.findRun n (t.entries.length + 1) 0 with
        | none => exact ⟨fun r t' h => (by cases h), fun _ k => hnone hrun k (Nat.zero_le k)⟩
        | some k =>
          have hlow := hsome k hrun
          obtain ⟨e, he, hgrants⟩ := hw.take hlow.run
          have hsize : l.pageSize * n % kWordRange = l.pageSize * n := by
            have hmul : l.pageSize * n ≤ l.pageSize * l.reserveCount :=
              Nat.mul_le_mul_left _ (hw.length ▸ hle)
            have hfits := l.fits
            have hpos := l.addressSpace_pos
            exact mod_eq_of_lt (by omega)
          simp only [he, hsize]
          refine ⟨fun r t' h => ?_, fun h => (by cases h)⟩
          cases h
          exact ⟨k, hlow, hgrants⟩

theorem WellFormed.address_inj {j : ℕ} {e e' : PageEntry} (hi : t.entries[i]? = some e)
    (hj : t.entries[j]? = some e') (h : e.address = e'.address) : i = j := by
  rw [hw.address i e hi, hw.address j e' hj] at h
  exact Nat.eq_of_mul_eq_mul_left l.pageSize_pos (Nat.add_left_cancel h)

theorem releasePage_eq (hk : t.usedAt k = true) :
    ∃ t', t.releasePage (l.addressSpace + l.pageSize * k) = some (l.pageSize, t') ∧
      t'.WellFormed ∧ ∀ m, t'.usedAt m = true ↔ t.usedAt m = true ∧ m ≠ k := by
  obtain ⟨e, he, hflags⟩ := usedAt_eq_true.mp hk
  have hlt : k < t.entries.length := (List.getElem?_eq_some_iff.mp he).1
  have hfind : t.findBackingPage (l.addressSpace + l.pageSize * k) = some k := by
    rw [findBackingPage, List.findIdx?_eq_some_iff_getElem]
    refine ⟨hlt, ?_, fun j hjk hj => ?_⟩
    · rw [(List.getElem?_eq_some_iff.mp he).2, hw.address k e he]
      exact decide_eq_true rfl
    · have hjlt : j < t.entries.length := Nat.lt_trans hjk hlt
      have hget : t.entries[j]? = some t.entries[j] := List.getElem?_eq_getElem _
      have heq : t.entries[j].address = e.address := by
        rw [hw.address k e he]
        exact of_decide_eq_true hj
      exact absurd (hw.address_inj hget he heq) (by omega)
  have hpos : l.addressSpace + l.pageSize * k ≠ 0 := by
    have := l.addressSpace_pos
    omega
  rw [releasePage, if_neg hpos, hfind]
  refine ⟨_, rfl, ⟨?_, fun m e' he' => ?_, ?_⟩, fun m => ?_⟩
  · exact (List.length_modify _ _ _).trans hw.length
  · rw [List.getElem?_modify] at he'
    obtain ⟨e₀, he₀, rfl⟩ := map_eq_some_iff.mp he'
    rw [← hw.address m e₀ he₀]
    split <;> rfl
  · have hcount := countP_modify PageEntry.inUse (fun e => { e with flags := .free }) he
    have hle : t.entries.countP PageEntry.inUse ≤ l.reserveCount := by
      rw [← hw.length]
      exact List.countP_le_length
    have hlt := l.metadata
    have hused : PageEntry.inUse e = true := by simp [PageEntry.inUse, hflags]
    have hfreed : PageEntry.inUse { e with flags := .free } = false := by
      simp [PageEntry.inUse]
    rw [hused, hfreed, if_pos rfl, if_neg Bool.false_ne_true] at hcount
    change (t.currentPageCount + (kWordRange - 1)) % kWordRange =
      (t.entries.modify k fun e => { e with flags := .free }).countP PageEntry.inUse
    rw [hw.count]
    unfold kWordRange at hlt ⊢
    omega
  · rw [PageTable.usedAt]
    by_cases hm : k = m
    · subst hm
      simp [he, PageEntry.inUse]
    · simp [hm, Ne.symm hm, PageTable.usedAt]

theorem releasePages_eq (hk : ∀ j < n, t.usedAt (k + j) = true) :
    ∃ total t', releasePages (l.addressSpace + l.pageSize * k) n t = some (total, t') ∧
      t'.WellFormed ∧ ∀ m, t'.usedAt m = true ↔ t.usedAt m = true ∧ ¬ (k ≤ m ∧ m < k + n) := by
  induction n with
  | zero => exact ⟨0, t, rfl, hw, fun m => by simp⟩
  | succ n ih =>
    obtain ⟨total, t', heq, hw', hused⟩ := ih fun j hj => hk j (by omega)
    have hlast : t'.usedAt (k + n) = true := by
      rw [hused]
      exact ⟨hk n (lt_succ_self n), by omega⟩
    obtain ⟨t'', heq', hw'', hused'⟩ := releasePage_eq hw' hlast
    have haddress : l.addressSpace + l.pageSize * k + l.pageSize * n =
        l.addressSpace + l.pageSize * (k + n) := by
      rw [Nat.mul_add]
      omega
    rw [releasePages, heq, bind_some]
    simp only [haddress, heq']
    refine ⟨_, _, rfl, hw'', fun m => ?_⟩
    have hlast : ¬ (k ≤ m ∧ m < k + (n + 1)) ↔ ¬ (k ≤ m ∧ m < k + n) ∧ m ≠ k + n := by omega
    rw [hused', hused, hlast, and_assoc]

end

/-- A table and the pages that it has handed out and that are not released since. -/
structure State (l : PageLayout) where
  table : PageTable l
  handed : List ℕ

inductive Act where
  | requestPage
  | requestPages (n : ℕ)
  | releasePage (address : ℕ)
  | releasePages (address n : ℕ)

/-- The addresses of `n` pages in a row. -/
def pagesFrom (l : PageLayout) (address n : ℕ) : List ℕ :=
  (List.range n).map fun j => address + l.pageSize * j

def State.hand (s : State l) (n : ℕ) : Option (Pages × PageTable l) → State l
  | none => s
  | some (r, t) => ⟨t, s.handed ++ pagesFrom l r.address n⟩

/-- A request of any size, or the release of pages that are handed out. -/
def step (s : State l) : Act → Option (State l)
  | .requestPage => some (s.hand 1 s.table.requestPage)
  | .requestPages n => if n < kWordRange then some (s.hand n (s.table.requestPages n)) else none
  | .releasePage address =>
    if address ∈ s.handed then
      (s.table.releasePage address).map fun (_, t) => ⟨t, s.handed.filter (· ∉ [address])⟩
    else none
  | .releasePages address n =>
    if ∀ a ∈ pagesFrom l address n, a ∈ s.handed then
      (releasePages address n s.table).map fun (_, t) =>
        ⟨t, s.handed.filter (· ∉ pagesFrom l address n)⟩
    else none

def machine (l : PageLayout) : Library.Interleaving.Machine (State l) Act where
  init := ⟨reserve l, []⟩
  step := step

/-- The pages that are handed out are those whose entries are in use. -/
structure Inv (s : State l) : Prop where
  wellFormed : s.table.WellFormed
  nodup : s.handed.Nodup
  handed : ∀ a, a ∈ s.handed ↔ ∃ k, s.table.usedAt k = true ∧ a = l.addressSpace + l.pageSize * k

theorem mem_pagesFrom {a : ℕ} : a ∈ pagesFrom l (l.addressSpace + l.pageSize * k) n ↔
    ∃ m, (k ≤ m ∧ m < k + n) ∧ a = l.addressSpace + l.pageSize * m := by
  rw [pagesFrom, List.mem_map]
  constructor
  · rintro ⟨j, hj, rfl⟩
    rw [List.mem_range] at hj
    exact ⟨k + j, by omega, by rw [Nat.mul_add, Nat.add_assoc]⟩
  · rintro ⟨m, hm, rfl⟩
    refine ⟨m - k, List.mem_range.mpr (by omega), ?_⟩
    rw [Nat.add_assoc, ← Nat.mul_add, Nat.add_sub_cancel' hm.1]

theorem page_inj {j : ℕ} (h : l.addressSpace + l.pageSize * i = l.addressSpace + l.pageSize * j) :
    i = j :=
  Nat.eq_of_mul_eq_mul_left l.pageSize_pos (Nat.add_left_cancel h)

theorem nodup_pagesFrom (l : PageLayout) (address n : ℕ) : (pagesFrom l address n).Nodup := by
  refine List.Nodup.map (fun i j h => ?_) List.nodup_range
  exact Nat.eq_of_mul_eq_mul_left l.pageSize_pos (Nat.add_left_cancel h)

theorem wellFormed_reserve (l : PageLayout) : (reserve l).WellFormed := by
  refine ⟨by simp [reserve], fun i e he => ?_, ?_⟩
  · rw [reserve, List.getElem?_map] at he
    obtain ⟨j, hj, rfl⟩ := map_eq_some_iff.mp he
    obtain ⟨hlt, rfl⟩ := List.getElem?_eq_some_iff.mp hj
    simp
  · rw [reserve]
    exact (List.countP_eq_zero.mpr fun e he => by
      obtain ⟨i, -, rfl⟩ := List.mem_map.mp he
      simp [PageEntry.inUse]).symm

theorem reserve_usedAt (l : PageLayout) (k : ℕ) : (reserve l).usedAt k = false := by
  rw [usedAt, reserve, List.getElem?_map]
  cases (List.range l.reserveCount)[k]? <;> simp [PageEntry.inUse]

variable {s : State l}

theorem Inv.fresh (h : Inv s) (hrun : s.table.FreeRun n k) {a : ℕ}
    (ha : a ∈ pagesFrom l (l.addressSpace + l.pageSize * k) n) : a ∉ s.handed := by
  intro hmem
  obtain ⟨m, hm, rfl⟩ := mem_pagesFrom.mp ha
  obtain ⟨j, hused, heq⟩ := (h.handed _).mp hmem
  obtain rfl := page_inj heq
  have hfree := hrun.2 (m - k) (by omega)
  rw [Nat.add_sub_cancel' hm.1] at hfree
  rw [usedAt_of_freeAt hfree] at hused
  cases hused

theorem Inv.hand (h : Inv s) {x : Option (Pages × PageTable l)}
    (hx : ∀ r t', x = some (r, t') → ∃ k, LowestRun s.table n 0 k ∧ Grants s.table n k r t') :
    Inv (s.hand n x) := by
  cases x with
  | none => exact h
  | some p =>
    obtain ⟨k, hlow, hgrants⟩ := hx p.1 p.2 rfl
    have hhand : s.hand n (some p) = ⟨p.2, s.handed ++ pagesFrom l p.1.address n⟩ := rfl
    rw [hhand, hgrants.address]
    refine ⟨hgrants.wellFormed, ?_, fun a => ?_⟩
    · refine List.nodup_append.mpr ⟨h.nodup, nodup_pagesFrom l _ n, fun a ha b hb hab => ?_⟩
      exact h.fresh hlow.run hb (hab ▸ ha)
    · rw [List.mem_append, h.handed, mem_pagesFrom]
      simp only [hgrants.usedAt, or_and_right, exists_or]

theorem Inv.release (h : Inv s) {t' : PageTable l} (hw : t'.WellFormed)
    (hused : ∀ m, t'.usedAt m = true ↔ s.table.usedAt m = true ∧ ¬ (k ≤ m ∧ m < k + n))
    {pages : List ℕ}
    (hpages : ∀ a, a ∈ pages ↔ ∃ m, (k ≤ m ∧ m < k + n) ∧ a = l.addressSpace + l.pageSize * m) :
    Inv (⟨t', s.handed.filter (· ∉ pages)⟩ : State l) := by
  refine ⟨hw, h.nodup.filter _, fun a => ?_⟩
  rw [List.mem_filter, h.handed, decide_eq_true_iff, hpages]
  constructor
  · rintro ⟨⟨m, hm, rfl⟩, hnot⟩
    exact ⟨m, (hused m).mpr ⟨hm, fun hin => hnot ⟨m, hin, rfl⟩⟩, rfl⟩
  · rintro ⟨m, hm, rfl⟩
    obtain ⟨hm, hout⟩ := (hused m).mp hm
    refine ⟨⟨m, hm, rfl⟩, ?_⟩
    rintro ⟨j, hj, heq⟩
    exact hout (page_inj heq ▸ hj)

theorem Inv.step {s' : State l} (h : Inv s) {a : Act} (hs : PageTable.step s a = some s') :
    Inv s' := by
  cases a with
  | requestPage =>
    cases hs
    exact h.hand (requestPage_eq h.wellFormed).1
  | requestPages n =>
    rw [PageTable.step] at hs
    split at hs
    case isTrue hn =>
      cases hs
      exact h.hand (requestPages_eq h.wellFormed hn).1
    case isFalse => cases hs
  | releasePage address =>
    rw [PageTable.step] at hs
    split at hs
    case isTrue hmem =>
      obtain ⟨k, hk, rfl⟩ := (h.handed address).mp hmem
      obtain ⟨t', heq, hw, hused⟩ := releasePage_eq h.wellFormed hk
      rw [heq] at hs
      cases hs
      have hone : ∀ m, m ≠ k ↔ ¬ (k ≤ m ∧ m < k + 1) := by omega
      refine h.release hw (fun m => by rw [hused, hone]) fun a => ?_
      rw [List.mem_singleton]
      constructor
      · rintro rfl
        exact ⟨k, by omega, rfl⟩
      · rintro ⟨m, hm, rfl⟩
        rw [show m = k by omega]
    case isFalse => cases hs
  | releasePages address n =>
    rw [PageTable.step] at hs
    split at hs
    case isTrue hmem =>
      cases n with
      | zero =>
        cases hs
        exact h.release h.wellFormed (k := 0) (n := 0) (fun m => by simp)
          fun a => by simp [pagesFrom]
      | succ n =>
        have hfirst : address ∈ pagesFrom l address (n + 1) := by
          rw [pagesFrom, List.mem_map]
          exact ⟨0, List.mem_range.mpr (succ_pos n), rfl⟩
        obtain ⟨k, hk, rfl⟩ := (h.handed address).mp (hmem address hfirst)
        have hused : ∀ j < n + 1, s.table.usedAt (k + j) = true := by
          intro j hj
          obtain ⟨m, hm, heq⟩ := (h.handed _).mp (hmem _ (mem_pagesFrom.mpr ⟨k + j, by omega, rfl⟩))
          rwa [page_inj heq]
        obtain ⟨total, t', heq, hw, hused'⟩ := releasePages_eq h.wellFormed hused
        rw [heq] at hs
        cases hs
        exact h.release hw hused' fun a => mem_pagesFrom
    case isFalse => cases hs

theorem reachable_inv (hs : (machine l).Reachable s) : Inv s :=
  hs.invariant ⟨wellFormed_reserve l, List.nodup_nil, fun a => by
    simp [machine, reserve_usedAt]⟩ fun _ _ _ h hstep => h.step hstep

def smallLayout : PageLayout :=
  ⟨2 ^ 20, 2 ^ 16, 4, by decide, by decide, by decide, by decide, by decide, by decide⟩

/-- Pages are handed out once until they are released, the count is the number of entries in
use, and `RequestPages(n)` returns the lowest run of `n` free entries if there is one. -/
theorem hands_out_once {s : State l} (hs : (machine l).Reachable s) :
    s.handed.Nodup ∧ s.table.currentPageCount = s.table.entries.countP PageEntry.inUse ∧
      ∀ n < kWordRange,
        ((s.table.requestPages n).isSome = true ↔ ∃ k, s.table.FreeRun n k) ∧
        ∀ r t', s.table.requestPages n = some (r, t') → ∃ k, LowestRun s.table n 0 k ∧
          r = ⟨l.addressSpace + l.pageSize * k, l.pageSize * n⟩ ∧
          ∀ a ∈ pagesFrom l r.address n, a ∉ s.handed := by
  have hinv := reachable_inv hs
  refine ⟨hinv.nodup, hinv.wellFormed.count, fun n hn => ⟨?_, fun r t' heq => ?_⟩⟩
  · obtain ⟨hsome, hnone⟩ := requestPages_eq hinv.wellFormed hn
    cases hreq : s.table.requestPages n with
    | none => simpa using hnone hreq
    | some p =>
      obtain ⟨k, hlow, -⟩ := hsome p.1 p.2 hreq
      simpa using ⟨k, hlow.run⟩
  · obtain ⟨k, hlow, hgrants⟩ := (requestPages_eq hinv.wellFormed hn).1 r t' heq
    refine ⟨k, hlow, ?_, fun a ha => ?_⟩
    · rw [← hgrants.address, ← hgrants.size]
    · rw [hgrants.address] at ha
      exact hinv.fresh hlow.run ha

/-- A run of two pages is taken past a page in use. -/
theorem hands_out_once_small : ∃ s : State smallLayout, (machine smallLayout).Reachable s ∧
    s.handed = [2 ^ 20, 2 ^ 20 + 2 * 2 ^ 16, 2 ^ 20 + 3 * 2 ^ 16] ∧ s.handed.Nodup := by
  have hrun : ((machine smallLayout).run (machine smallLayout).init [.requestPage, .requestPage,
      .requestPages 2, .releasePage (2 ^ 20 + 2 ^ 16)]).isSome := by
    decide
  obtain ⟨s, hs⟩ := isSome_iff_exists.mp hrun
  have hreach := Library.Interleaving.Machine.Reachable.init.run hs
  refine ⟨s, hreach, ?_, (hands_out_once hreach).1⟩
  have hhanded : (((machine smallLayout).run (machine smallLayout).init [.requestPage,
      .requestPage, .requestPages 2, .releasePage (2 ^ 20 + 2 ^ 16)]).map (·.handed)) =
      some [2 ^ 20, 2 ^ 20 + 2 * 2 ^ 16, 2 ^ 20 + 3 * 2 ^ 16] := by
    decide
  rw [hs] at hhanded
  exact Option.some.inj hhanded

end PageTable

/-! What the allocators of `base/allocator/eq_alloc` rely on when they take pages of 64 KiB
from a page table, and that the page table grants it. -/

open List

def kPageSize : ℕ := 64 * 1024

/-- A block as its user knows it. -/
structure Block where
  address : ℕ
  size : ℕ
  deriving DecidableEq

/-- The `n` pages of a request, none of which was handed out before. -/
structure PageGrant (handed handed' : ℕ → Prop) (n : ℕ) (r : Pages) : Prop where
  pos : 0 < r.address
  aligned : kPageSize ∣ r.address
  size : r.size = kPageSize * n
  fits : r.address + kPageSize * n < kWordRange
  fresh : ∀ j < n, ¬ handed (r.address + kPageSize * j)
  handed : ∀ a, handed' a ↔ handed a ∨ ∃ j < n, a = r.address + kPageSize * j

/-- Something that hands out pages, with the pages that it has handed out. -/
structure PageSource (P : Type) where
  requestPage : P → Option (Pages × P)
  requestPages : ℕ → P → Option (Pages × P)
  handed : P → ℕ → Prop
  decidableHanded : ∀ p a, Decidable (handed p a)
  page_grant : ∀ p r p', requestPage p = some (r, p') → PageGrant (handed p) (handed p') 1 r
  pages_grant : ∀ n p r p', n < kWordRange → requestPages n p = some (r, p') →
    PageGrant (handed p) (handed p') n r

namespace PageSource

variable {P : Type} (src : PageSource P)

instance (p : P) (a : ℕ) : Decidable (src.handed p a) := src.decidableHanded p a

/-- The `n` bytes from `a` on lie in pages handed out, so that an access does not fault. -/
def Mapped (p : P) (a n : ℕ) : Prop := ∀ i < n, src.handed p ((a + i) / kPageSize * kPageSize)

instance (p : P) (a n : ℕ) : Decidable (src.Mapped p a n) := Nat.decidableBallLT n _

variable {src}

theorem mapped_of_page {p : P} {page a n : ℕ} (h : src.handed p page) (haligned : kPageSize ∣ page)
    (hle : page ≤ a) (hend : a + n ≤ page + kPageSize) : src.Mapped p a n := by
  intro i hi
  obtain ⟨k, rfl⟩ := haligned
  have hdiv : (a + i) / kPageSize = k := by
    rw [Nat.div_eq_iff (by decide)]
    unfold kPageSize at *
    omega
  rw [hdiv, Nat.mul_comm]
  exact h

theorem Mapped.handed {p : P} {a n : ℕ} (h : src.Mapped p a n) (hn : 0 < n) :
    src.handed p (a / kPageSize * kPageSize) := h 0 hn

section InOrder

variable (base limit : ℕ)

/-- The next `n` of `limit` pages from `base` on, of which `p` are handed out. -/
def requestInOrder (n p : ℕ) : Option (Pages × ℕ) :=
  if 0 < n ∧ p + n ≤ limit then some (⟨base + kPageSize * p, kPageSize * n⟩, p + n) else none

def handedInOrder (p a : ℕ) : Prop := ∃ j < p, a = base + kPageSize * j

variable {base limit}

theorem inOrder_grant (hpos : 0 < base) (haligned : kPageSize ∣ base)
    (hfits : base + kPageSize * limit < kWordRange) {n p p' : ℕ} {r : Pages}
    (h : requestInOrder base limit n p = some (r, p')) :
    PageGrant (handedInOrder base p) (handedInOrder base p') n r := by
  obtain ⟨hlimit, h⟩ := Option.ite_none_right_eq_some.mp h
  cases h
  have hmul : kPageSize * (p + n) ≤ kPageSize * limit := Nat.mul_le_mul_left _ hlimit.2
  rw [Nat.mul_add] at hmul
  refine ⟨Nat.add_pos_left hpos _, Nat.dvd_add haligned (Nat.dvd_mul_right _ _), rfl, ?_, ?_,
    fun a => ?_⟩
  · simp only
    omega
  · rintro j hj ⟨i, hi, heq⟩
    rw [Nat.add_assoc, ← Nat.mul_add] at heq
    have hij := Nat.eq_of_mul_eq_mul_left (by decide) (Nat.add_left_cancel heq)
    omega
  · constructor
    · rintro ⟨j, hj, rfl⟩
      by_cases hjp : j < p
      · exact .inl ⟨j, hjp, rfl⟩
      · refine .inr ⟨j - p, by omega, ?_⟩
        rw [Nat.add_assoc, ← Nat.mul_add, Nat.add_sub_cancel' (by omega)]
    · rintro (⟨j, hj, rfl⟩ | ⟨j, hj, rfl⟩)
      · exact ⟨j, by omega, rfl⟩
      · refine ⟨p + j, by omega, ?_⟩
        rw [Nat.mul_add, Nat.add_assoc]

/-- Pages in order, as a page table hands them out that gets none back. -/
def inOrder (base limit : ℕ) (hpos : 0 < base) (haligned : kPageSize ∣ base)
    (hfits : base + kPageSize * limit < kWordRange) : PageSource ℕ where
  requestPage := requestInOrder base limit 1
  requestPages := requestInOrder base limit
  handed := handedInOrder base
  decidableHanded p a := inferInstanceAs (Decidable (∃ j < p, a = base + kPageSize * j))
  page_grant _ _ _ h := inOrder_grant hpos haligned hfits h
  pages_grant _ _ _ _ _ h := inOrder_grant hpos haligned hfits h

end InOrder

section Listed

variable (addresses : List ℕ)

/-- The pages of a list one by one, of which `p` are handed out. -/
def requestListed (p : ℕ) : Option (Pages × ℕ) :=
  addresses[p]?.map fun address => (⟨address, kPageSize⟩, p + 1)

variable {addresses}

theorem listed_grant (hnodup : addresses.Nodup)
    (hpage : ∀ a ∈ addresses, 0 < a ∧ kPageSize ∣ a ∧ a + kPageSize < kWordRange) {p p' : ℕ}
    {r : Pages} (h : requestListed addresses p = some (r, p')) :
    PageGrant (· ∈ addresses.take p) (· ∈ addresses.take p') 1 r := by
  obtain ⟨a, ha, heq⟩ := Option.map_eq_some_iff.mp h
  obtain ⟨hlt, hget⟩ := List.getElem?_eq_some_iff.mp ha
  cases heq
  obtain ⟨hpos, haligned, hfits⟩ := hpage a (mem_of_getElem? ha)
  have htake : addresses.take (p + 1) = addresses.take p ++ [a] := by
    rw [take_add_one, ha, Option.toList_some]
  refine ⟨hpos, haligned, rfl, hfits, fun j hj hmem => ?_, fun b => ?_⟩
  · obtain rfl : j = 0 := by omega
    have hsub := hnodup.sublist (take_sublist (p + 1) addresses)
    rw [htake] at hsub
    exact (nodup_append.mp hsub).2.2 _ hmem _ (mem_singleton.mpr rfl) rfl
  · rw [htake, mem_append, mem_singleton]
    simp

def listed (addresses : List ℕ) (hnodup : addresses.Nodup)
    (hpage : ∀ a ∈ addresses, 0 < a ∧ kPageSize ∣ a ∧ a + kPageSize < kWordRange) :
    PageSource ℕ where
  requestPage := requestListed addresses
  requestPages _ _ := none
  handed p a := a ∈ addresses.take p
  decidableHanded _ _ := inferInstance
  page_grant _ _ _ h := listed_grant hnodup hpage h
  pages_grant _ _ _ _ _ h := nomatch h

end Listed

end PageSource

namespace PageTable

variable {l : PageLayout}

/-- The page at `a` is in use. -/
def Handed (t : PageTable l) (a : ℕ) : Prop :=
  ∃ k, t.usedAt k = true ∧ a = l.addressSpace + l.pageSize * k

instance (t : PageTable l) (a : ℕ) : Decidable (t.Handed a) :=
  decidable_of_iff (∃ k < t.entries.length, t.usedAt k = true ∧
      a = l.addressSpace + l.pageSize * k) <| by
    constructor
    · rintro ⟨k, -, hk⟩
      exact ⟨k, hk⟩
    · rintro ⟨k, hused, ha⟩
      obtain ⟨e, he, -⟩ := usedAt_eq_true.mp hused
      exact ⟨k, (List.getElem?_eq_some_iff.mp he).1, hused, ha⟩

theorem Grants.pageGrant {t t' : PageTable l} (hsize : l.pageSize = kPageSize)
    (hfits : l.addressSpace + l.pageSize * l.reserveCount < kWordRange) {n k : ℕ}
    {r : Pages} (hw : t.WellFormed) (hrun : t.FreeRun n k) (h : Grants t n k r t') :
    PageGrant t.Handed t'.Handed n r := by
  have hle : l.pageSize * (k + n) ≤ l.pageSize * l.reserveCount :=
    Nat.mul_le_mul_left _ (hw.size_lt hrun)
  have hpos := l.addressSpace_pos
  rw [Nat.mul_add] at hle
  refine ⟨?_, ?_, ?_, ?_, fun j hj => ?_, fun a => ?_⟩
  · rw [h.address]
    omega
  · rw [h.address, ← hsize]
    exact Nat.dvd_add l.aligned (Nat.dvd_mul_right _ _)
  · rw [h.size, hsize]
  · rw [h.address, ← hsize]
    omega
  · rintro ⟨m, hused, heq⟩
    rw [h.address, ← hsize, Nat.add_assoc, ← Nat.mul_add] at heq
    rw [← page_inj heq] at hused
    have hfree := hrun.2 j hj
    rw [usedAt_of_freeAt hfree] at hused
    cases hused
  · rw [h.address, ← hsize]
    constructor
    · rintro ⟨m, hused, rfl⟩
      rcases (h.usedAt m).mp hused with hold | hin
      · exact .inl ⟨m, hold, rfl⟩
      · refine .inr ⟨m - k, by omega, ?_⟩
        rw [Nat.add_assoc, ← Nat.mul_add, Nat.add_sub_cancel' hin.1]
    · rintro (⟨m, hold, rfl⟩ | ⟨j, hj, rfl⟩)
      · exact ⟨m, (h.usedAt m).mpr (.inl hold), rfl⟩
      · refine ⟨k + j, (h.usedAt _).mpr (.inr ⟨by omega, by omega⟩), ?_⟩
        rw [Nat.mul_add, Nat.add_assoc]

abbrev Sound (l : PageLayout) : Type := { t : PageTable l // t.WellFormed }

def Sound.lift (x : Option (Pages × PageTable l))
    (h : ∀ r t', x = some (r, t') → t'.WellFormed) : Option (Pages × Sound l) :=
  x.pmap (fun p hp => (p.1, ⟨p.2, hp⟩)) fun p hp => h p.1 p.2 hp

theorem Sound.lift_eq {x : Option (Pages × PageTable l)}
    {h : ∀ r t', x = some (r, t') → t'.WellFormed} {r : Pages} {t' : Sound l}
    (heq : Sound.lift x h = some (r, t')) : x = some (r, t'.val) := by
  cases x with
  | none => cases heq
  | some p =>
    cases heq
    rfl

/-- A page table of 64 KiB pages, whose last page ends before the addresses do, as a source
of pages. -/
def source (l : PageLayout) (hsize : l.pageSize = kPageSize)
    (hfits : l.addressSpace + l.pageSize * l.reserveCount < kWordRange) :
    PageSource (Sound l) where
  requestPage t := Sound.lift t.val.requestPage fun r t' h => by
    obtain ⟨k, -, hgrants⟩ := (requestPage_eq t.property).1 r t' h
    exact hgrants.wellFormed
  requestPages n t :=
    if hn : n < kWordRange then
      Sound.lift (t.val.requestPages n) fun r t' h => by
        obtain ⟨k, -, hgrants⟩ := (requestPages_eq t.property hn).1 r t' h
        exact hgrants.wellFormed
    else none
  handed t := t.val.Handed
  decidableHanded _ _ := inferInstance
  page_grant t r t' h := by
    obtain ⟨k, hlow, hgrants⟩ := (requestPage_eq t.property).1 r t'.val (Sound.lift_eq h)
    exact hgrants.pageGrant hsize hfits t.property hlow.run
  pages_grant n t r t' hn h := by
    rw [dif_pos hn] at h
    obtain ⟨k, hlow, hgrants⟩ := (requestPages_eq t.property hn).1 r t'.val (Sound.lift_eq h)
    exact hgrants.pageGrant hsize hfits t.property hlow.run

end PageTable

end Equilibrium
