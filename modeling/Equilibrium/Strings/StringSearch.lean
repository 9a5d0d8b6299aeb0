import Equilibrium.Strings.BaseStringSearch

/-! `StringSearch` of `base/strings/string_search.h`: it looks for the last character of the
needle, compares the needle from its start where it finds that one, and goes on by the distance
of that character from the one like it before. A read outside the haystack or the needle, and
a loop that does not end, give `none`. -/

namespace Equilibrium.StringSearch

open StringStorage List Option
open BaseString (First OccursAt)
open BaseString.Text (scanUp)

def kStringNotFoundPos : ℕ := 2 ^ 64 - 1

/-- The characters of an array. -/
structure Buffer (w : ℕ) where
  chars : List (TChar w)
  length_lt : chars.length < 2 ^ 63

variable {w : ℕ}

def charAt (xs : List (TChar w)) (c : TChar w) (i : ℕ) : Option Bool := xs[i]?.map (· = c)

/-- Whether `i[j]` and `needle[j]` differ. -/
def differAt (haystack needle : List (TChar w)) (i j : ℕ) : Option Bool := do
  let a ← haystack[i + j]?
  let b ← needle[j]?
  return a ≠ b

def skipOf (needle : List (TChar w)) (needleSizeLen : ℕ) (lastNeedle : TChar w) : Option ℕ :=
  scanUp (fun skip => charAt needle lastNeedle (needleSizeLen - skip)) (1 + needleSizeLen) 1
    needleSizeLen

/-- `while (i < iEnd)`; a `skip` of zero is not computed yet. -/
def searchLoop (haystack needle : List (TChar w)) (needleSizeLen : ℕ) (lastNeedle : TChar w)
    (iEnd : ℕ) : (rounds i skip : ℕ) → Option ℕ
  | 0, _, _ => none
  | rounds + 1, i, skip =>
    if i < iEnd then do
      let i ← scanUp (fun k => charAt haystack lastNeedle (k + needleSizeLen)) iEnd i (iEnd - i)
      if i = iEnd then return kStringNotFoundPos
      let j ← scanUp (differAt haystack needle i) needle.length 0 needle.length
      if j = needle.length then return i
      let skip ← if skip = 0 then skipOf needle needleSizeLen lastNeedle else some skip
      searchLoop haystack needle needleSizeLen lastNeedle iEnd rounds (i + skip) skip
    else some kStringNotFoundPos

def stringSearch (haystack needle : Buffer w) (startPos : ℕ) : Option ℕ :=
  let size := haystack.chars.length
  let needleSize := needle.chars.length
  let sum := (needleSize + startPos) % 2 ^ 64
  if sum > size ∨ sum < startPos then some kStringNotFoundPos
  else if needleSize = 0 then some startPos
  else do
    let needleSizeLen := needleSize - 1
    let lastNeedle ← needle.chars[needleSizeLen]?
    let iEnd := size - needleSizeLen
    searchLoop haystack.chars needle.chars needleSizeLen lastNeedle iEnd (iEnd - startPos + 1)
      startPos 0

section Loops

variable {xs ys : List (TChar w)} {c : TChar w} {i k n rounds skip : ℕ} {o : Option ℕ}

theorem charAt_iff (h : i < xs.length) :
    ∃ b, charAt xs c i = some b ∧ (b = true ↔ xs[i]? = some c) := by
  have hget : xs[i]? = some _ := getElem?_eq_getElem h
  refine ⟨_, by rw [charAt, hget]; rfl, ?_⟩
  rw [hget, some_inj, decide_eq_true_iff]

theorem differAt_iff (hx : i + k < xs.length) (hy : k < ys.length) :
    ∃ b, differAt xs ys i k = some b ∧ (b = true ↔ xs[i + k]? ≠ ys[k]?) := by
  have hget : xs[i + k]? = some _ := getElem?_eq_getElem hx
  have hget' : ys[k]? = some _ := getElem?_eq_getElem hy
  refine ⟨_, by rw [differAt, hget, hget']; rfl, ?_⟩
  rw [hget, hget', decide_eq_true_iff, ne_eq, ne_eq, some_inj]

theorem occursAt_iff (h : i + ys.length ≤ xs.length) :
    OccursAt ys xs i ↔ ∀ k < ys.length, xs[i + k]? = ys[k]? := by
  rw [OccursAt, and_iff_right (by omega), prefix_iff_getElem?]
  constructor
  · intro hprefix k hk
    have hget := hprefix k hk
    rw [getElem?_drop] at hget
    rw [hget, getElem?_eq_getElem hk]
  · intro hall k hk
    rw [getElem?_drop, hall k hk, getElem?_eq_getElem hk]

theorem matchLoop_eq (h : i + ys.length ≤ xs.length) :
    ∃ j, scanUp (differAt xs ys i) ys.length 0 ys.length = some j ∧
      (j = ys.length ↔ OccursAt ys xs i) := by
  obtain ⟨o, ho, hfirst⟩ := @BaseString.scanUp_first _ (fun k => k < ys.length ∧
    xs[i + k]? ≠ ys[k]?) ys.length 0 ys.length (fun k _ hk => by
      obtain ⟨b, hb, hiff⟩ : ∃ b, differAt xs ys i k = some b ∧
        (b = true ↔ xs[i + k]? ≠ ys[k]?) := differAt_iff (by omega) (by omega)
      exact ⟨b, hb, hiff.trans (and_iff_right (by omega)).symm⟩) fun k _ hk => by omega
  refine ⟨_, ho, ?_⟩
  rw [occursAt_iff h]
  cases o with
  | none =>
    have hempty : {k | 0 ≤ k ∧ k < ys.length ∧ xs[i + k]? ≠ ys[k]?} = ∅ := hfirst
    refine iff_of_true rfl fun k hk => ?_
    by_contra hne
    exact Set.eq_empty_iff_forall_notMem.mp hempty k ⟨Nat.zero_le k, hk, hne⟩
  | some r =>
    obtain ⟨-, hlt, hne⟩ := hfirst.mem rfl
    exact iff_of_false hlt.ne fun hall => hne (hall r hlt)

/-- The skip goes to the next place where the last character of the needle is again, or past
the start of the needle. -/
structure SkipsTo (ys : List (TChar w)) (c : TChar w) (skip : ℕ) : Prop where
  pos : 0 < skip
  least : ∀ k, 0 < k → k < skip → k < ys.length ∧ ys[ys.length - 1 - k]? ≠ some c

theorem skipOf_eq (hy : 0 < ys.length) :
    ∃ skip, skipOf ys (ys.length - 1) c = some skip ∧ SkipsTo ys c skip := by
  obtain ⟨o, ho, hfirst⟩ := @BaseString.scanUp_first _ (fun k => k < ys.length ∧
    ys[ys.length - 1 - k]? = some c) (1 + (ys.length - 1)) 1 (ys.length - 1) (fun k _ hk => by
      obtain ⟨b, hb, hiff⟩ : ∃ b, charAt ys c (ys.length - 1 - k) = some b ∧
        (b = true ↔ ys[ys.length - 1 - k]? = some c) := charAt_iff (by omega)
      exact ⟨b, hb, hiff.trans (and_iff_right (by omega)).symm⟩) fun k _ hk => by omega
  refine ⟨_, ho, ?_⟩
  cases o with
  | none =>
    have hempty : {k | 1 ≤ k ∧ k < ys.length ∧ ys[ys.length - 1 - k]? = some c} = ∅ := hfirst
    refine ⟨by rw [getD_none]; omega, fun k hk hlt => ?_⟩
    rw [getD_none] at hlt
    have hlength : k < ys.length := by omega
    exact ⟨hlength, fun heq =>
      Set.eq_empty_iff_forall_notMem.mp hempty k ⟨hk, hlength, heq⟩⟩
  | some r =>
    obtain ⟨⟨hr, hlength, -⟩, hleast⟩ :
      IsLeast {k | 1 ≤ k ∧ k < ys.length ∧ ys[ys.length - 1 - k]? = some c} r := hfirst
    refine ⟨hr, fun k hk hlt => ?_⟩
    rw [getD_some] at hlt
    refine ⟨hlt.trans hlength, fun heq => ?_⟩
    have hle := hleast ⟨hk, hlt.trans hlength, heq⟩
    omega

theorem SkipsTo.not_occursAt (h : SkipsTo ys c skip) (hc : xs[i + (ys.length - 1)]? = some c)
    (hk : 0 < k) (hlt : k < skip) : ¬ OccursAt ys xs (i + k) := by
  intro hoccurs
  obtain ⟨hlength, hne⟩ := h.least k hk hlt
  have hat := (occursAt_iff hoccurs.add_length_le).mp hoccurs (ys.length - 1 - k) (by omega)
  have hindex : i + k + (ys.length - 1 - k) = i + (ys.length - 1) := by omega
  rw [hindex, hc] at hat
  exact hne hat.symm

theorem searchLoop_first (hy : 0 < ys.length) (hfit : ys.length ≤ xs.length)
    (hlast : ys[ys.length - 1]? = some c) (hskip : skip = 0 ∨ SkipsTo ys c skip)
    (hrounds : xs.length - (ys.length - 1) - i < rounds) :
    ∃ o, searchLoop xs ys (ys.length - 1) c (xs.length - (ys.length - 1)) rounds i skip =
        some (o.getD kStringNotFoundPos) ∧ First {k | i ≤ k ∧ OccursAt ys xs k} o := by
  have hend : ∀ k, OccursAt ys xs k → k < xs.length - (ys.length - 1) ∧
      xs[k + (ys.length - 1)]? = some c := by
    intro k hoccurs
    have hbound := hoccurs.add_length_le
    have hat := (occursAt_iff hbound).mp hoccurs (ys.length - 1) (by omega)
    exact ⟨by omega, hat.trans hlast⟩
  induction rounds generalizing i skip with
  | zero => cases hrounds
  | succ rounds ih =>
    rw [searchLoop]
    by_cases hi : i < xs.length - (ys.length - 1)
    · have hsum : i + (xs.length - (ys.length - 1) - i) = xs.length - (ys.length - 1) := by omega
      obtain ⟨o, ho, hfirst⟩ := @BaseString.scanUp_first
        (fun k => charAt xs c (k + (ys.length - 1)))
        (fun k => k < xs.length - (ys.length - 1) ∧ xs[k + (ys.length - 1)]? = some c)
        (xs.length - (ys.length - 1)) i (xs.length - (ys.length - 1) - i) (fun k _ hk => by
          obtain ⟨b, hb, hiff⟩ : ∃ b, charAt xs c (k + (ys.length - 1)) = some b ∧
            (b = true ↔ xs[k + (ys.length - 1)]? = some c) := charAt_iff (by omega)
          exact ⟨b, hb, hiff.trans (and_iff_right (by omega)).symm⟩) fun k _ hk => by omega
      rw [if_pos hi, ho]
      cases o with
      | none =>
        refine ⟨none, if_pos rfl, Set.eq_empty_iff_forall_notMem.mpr ?_⟩
        rintro k ⟨hk, hoccurs⟩
        exact Set.eq_empty_iff_forall_notMem.mp hfirst k ⟨hk, hend k hoccurs⟩
      | some r =>
        obtain ⟨⟨hir, hr, hc⟩, hleast⟩ : IsLeast {k | i ≤ k ∧
          k < xs.length - (ys.length - 1) ∧ xs[k + (ys.length - 1)]? = some c} r := hfirst
        have hle : ∀ k, i ≤ k → OccursAt ys xs k → r ≤ k := fun k hk hoccurs =>
          hleast ⟨hk, hend k hoccurs⟩
        obtain ⟨j, hj, hmatch⟩ := matchLoop_eq (show r + ys.length ≤ xs.length by omega)
        simp only [getD_some, bind_eq_bind, bind_some,
          if_neg hr.ne, hj]
        by_cases hoccurs : OccursAt ys xs r
        · rw [if_pos (hmatch.mpr hoccurs)]
          exact ⟨some r, rfl, ⟨hir, hoccurs⟩, fun k hk => hle k hk.1 hk.2⟩
        · rw [if_neg fun heq => hoccurs (hmatch.mp heq)]
          obtain ⟨skip', hskips, hcompute⟩ : ∃ skip', SkipsTo ys c skip' ∧
              ∀ f : ℕ → Option ℕ, (if skip = 0 then (skipOf ys (ys.length - 1) c).bind f
                else f skip) = f skip' := by
            by_cases hzero : skip = 0
            · obtain ⟨skip', hrun, hskips⟩ := skipOf_eq hy
              exact ⟨skip', hskips, fun f => by rw [if_pos hzero, hrun, bind_some]⟩
            · exact ⟨skip, hskip.resolve_left hzero, fun f => if_neg hzero⟩
          have hpos := hskips.pos
          obtain ⟨o, hrun, hrest⟩ := ih (i := r + skip') (.inr hskips) (by omega)
          have hset : {k | r + skip' ≤ k ∧ OccursAt ys xs k} = {k | i ≤ k ∧ OccursAt ys xs k} := by
            ext k
            constructor
            · rintro ⟨hk, hmem⟩
              exact ⟨by omega, hmem⟩
            · rintro ⟨hk, hmem⟩
              have hrk := hle k hk hmem
              refine ⟨Nat.le_of_not_lt fun hlt => ?_, hmem⟩
              obtain heq | hgt := Nat.eq_or_lt_of_le hrk
              · exact hoccurs (heq ▸ hmem)
              · have hshift : r + (k - r) = k := by omega
                exact hskips.not_occursAt hc (by omega : 0 < k - r) (by omega)
                  (hshift.symm ▸ hmem)
          have hgoes := hcompute fun skip => searchLoop xs ys (ys.length - 1) c
            (xs.length - (ys.length - 1)) rounds (r + skip) skip
          exact ⟨o, hgoes.trans hrun, hset ▸ hrest⟩
    · refine ⟨none, if_neg hi, Set.eq_empty_iff_forall_notMem.mpr ?_⟩
      rintro k ⟨hk, hoccurs⟩
      have hbound := (hend k hoccurs).1
      omega

end Loops

/-- The search ends with the least match from the start on, or with the value that no match
has. -/
theorem stringSearch_first (haystack needle : Buffer w) (startPos : Fin (2 ^ 64)) :
    ∃ o, stringSearch haystack needle startPos.val = some (o.getD kStringNotFoundPos) ∧
      First {i | startPos.val ≤ i ∧ OccursAt needle.chars haystack.chars i} o ∧
      ∀ r, o = some r → r ≠ kStringNotFoundPos := by
  have hx := haystack.length_lt
  have hy := needle.length_lt
  have hstart := startPos.isLt
  have hfound : ∀ {o}, First {i | startPos.val ≤ i ∧ OccursAt needle.chars haystack.chars i} o →
      ∀ r, o = some r → r ≠ kStringNotFoundPos := by
    intro o hfirst r hr
    have hbound := (hfirst.mem hr).2.1
    unfold kStringNotFoundPos
    omega
  rw [stringSearch]
  by_cases hout : (needle.chars.length + startPos.val) % 2 ^ 64 > haystack.chars.length ∨
      (needle.chars.length + startPos.val) % 2 ^ 64 < startPos.val
  · have hnone : First {i | startPos.val ≤ i ∧ OccursAt needle.chars haystack.chars i} none := by
      refine Set.eq_empty_iff_forall_notMem.mpr ?_
      rintro i ⟨hi, hoccurs⟩
      have hbound := hoccurs.add_length_le
      omega
    exact ⟨none, if_pos hout, hnone, hfound hnone⟩
  · simp only [if_neg hout]
    by_cases hempty : needle.chars.length = 0
    · have hleast : First {i | startPos.val ≤ i ∧ OccursAt needle.chars haystack.chars i}
          (some startPos.val) := by
        rw [length_eq_zero_iff.mp hempty]
        exact ⟨⟨le_refl _, by omega, nil_prefix⟩, fun i hi => hi.1⟩
      exact ⟨some startPos.val, if_pos hempty, hleast, hfound hleast⟩
    · have hpos : 0 < needle.chars.length := Nat.pos_of_ne_zero hempty
      have hlast : needle.chars[needle.chars.length - 1]? = some _ :=
        getElem?_eq_getElem (by omega)
      obtain ⟨o, ho, hfirst⟩ := searchLoop_first (i := startPos.val) hpos
        (show needle.chars.length ≤ haystack.chars.length by omega) hlast (.inl rfl)
        (Nat.lt_succ_self _)
      refine ⟨o, ?_, hfirst, hfound hfirst⟩
      rw [if_neg hempty, hlast]
      exact ho

end Equilibrium.StringSearch
