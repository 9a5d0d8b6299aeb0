import Equilibrium.Library.SlotArray
import Equilibrium.Strings.FloatFormat
import Equilibrium.Strings.NumberParseCapacity

/-! `FormatFloatTo` with its big integer, its table and its digit buffers checked: `none` where a
limb is dropped, an index is past the buffer of 800 digits or the table, or a digit is read that
was never written. No double gets there: an expansion has at most 88 groups of nine digits, and
whatever precision is asked for, the rounding and the writing stay inside it. -/

namespace Equilibrium.FloatFormat

open Library Library.DecimalNumeral Library.SlotArray BigUInt List Option

namespace Checked

/-- A decimal over its `char digits[800]`. -/
structure Decimal where
  digits : Slots (Fin 10)
  count : Nat
  exponent : ℤ

def buffer : Slots (Fin 10) := List.replicate 800 none

def mulFives : Nat → BigUInt → Option BigUInt
  | power + 13, n => (n.checkedMulSmall 1220703125).bind (mulFives power)
  | power, n => if power ≠ 0 then kPow5Table[power]?.bind n.checkedMulSmall else some n

/-- The inner loop of the extraction, from the given length on. -/
def putGroup : Nat → Nat → Slots (Fin 10) → Nat → Option (Slots (Fin 10) × Nat)
  | 0, _, reversed, length => some (reversed, length)
  | k + 1, group, reversed, length =>
    (write reversed length (Fin.ofNat 10 group)).bind fun reversed =>
      putGroup k (group / 10) reversed (length + 1)

def extractDigits : Nat → BigUInt → Slots (Fin 10) → Nat → Option (Slots (Fin 10) × Nat)
  | 0, n, reversed, length => if n.isZero then some (reversed, length) else none
  | fuel + 1, n, reversed, length =>
    if n.isZero then some (reversed, length)
    else
      let divided := n.divModSmall 1000000000
      (putGroup 9 divided.2 reversed length).bind fun (reversed, length) =>
        extractDigits fuel divided.1 reversed length

/-- The loop that drops zeros from the end of a buffer. -/
def trimZeros (digits : Slots (Fin 10)) : Nat → Option Nat
  | 0 => some 0
  | length + 1 =>
    (read digits length).bind fun d => if d = 0 then trimZeros digits length else some (length + 1)

def copyReversed (reversed : Slots (Fin 10)) (length : Nat) : Option (Slots (Fin 10)) :=
  (List.range length).foldlM
    (fun digits i => (read reversed (length - 1 - i)).bind (write digits i)) buffer

def scaled (mantissa : Nat) (exponent2 : ℤ) : Option BigUInt :=
  let n := BigUInt.setU64 mantissa
  if 0 ≤ exponent2 then n.checkedShiftLeft exponent2 else mulFives (-exponent2).toNat n

def expandExact (mantissa : Nat) (exponent2 : ℤ) : Option Decimal := do
  let n ← scaled mantissa exponent2
  let fractionDigits := if 0 ≤ exponent2 then 0 else -exponent2
  let (reversed, length) ← extractDigits (kMaxLimbs * kLimbBits) n buffer 0
  let length ← trimZeros reversed length
  let digits ← copyReversed reversed length
  some ⟨digits, length, length - fractionDigits⟩

/-- Whether a digit that is not zero follows, over the given number of digits. -/
def anyNonzero (digits : Slots (Fin 10)) (i : Nat) : Nat → Option Bool
  | 0 => some false
  | k + 1 =>
    (read digits i).bind fun d => if d ≠ 0 then some true else anyNonzero digits (i + 1) k

def roundsUp (digits : Slots (Fin 10)) (count keep : Nat) : Option Bool :=
  (read digits keep).bind fun firstDropped =>
    if 5 < firstDropped then some true
    else if firstDropped < 5 then some false
    else
      (anyNonzero digits (keep + 1) (count - (keep + 1))).bind fun restNonzero =>
        if restNonzero then some true
        else if 0 < keep then (read digits (keep - 1)).map fun d => decide ((d : ℕ) % 2 ≠ 0)
        else some false

/-- The carry loop, from the digit before the index down, and whether it went past the first. -/
def carryUp : Nat → Slots (Fin 10) → Option (Slots (Fin 10) × Bool)
  | 0, digits => some (digits, true)
  | i + 1, digits =>
    (read digits i).bind fun d =>
      if d ≠ 9 then (write digits i (d + 1)).map fun digits => (digits, false)
      else (write digits i 0).bind (carryUp i)

def roundTo (value : Decimal) (keep : ℤ) : Option Decimal :=
  if value.count ≤ keep then some value
  else if keep < 0 then some { value with count := 0 }
  else
    (roundsUp value.digits value.count keep.toNat).bind fun up =>
      if up then
        (carryUp keep.toNat value.digits).bind fun (digits, past) =>
          if past then
            (write digits 0 1).map fun digits =>
              ⟨digits, if 0 < keep then keep.toNat else 1, value.exponent + 1⟩
          else some ⟨digits, keep.toNat, value.exponent⟩
      else some { value with count := keep.toNat }

def Decimal.digitAt (value : Decimal) (index : ℤ) : Option (Fin 10) :=
  if 0 ≤ index ∧ index < value.count then read value.digits index.toNat else some 0

def writeDigits (w : Writer) (times : ℤ) (digit : ℤ → Option (Fin 10)) : Option Writer :=
  (List.range times.toNat).foldlM (fun w (i : ℕ) => (digit i).map fun d => w.put (digitChar d)) w

def writeFixed (w : Writer) (value : Decimal) (precision : ℤ) (alt : Bool) : Option Writer :=
  (if value.exponent ≤ 0 then some (w.put '0')
    else writeDigits w value.exponent value.digitAt).bind fun w =>
      if precision ≤ 0 then some (if alt then w.put '.' else w)
      else writeDigits (w.put '.') precision fun k => value.digitAt (value.exponent + (k + 1) - 1)

def writeScientific (w : Writer) (value : Decimal) (precision : ℤ) (alt uppercase : Bool) :
    Option Writer :=
  let zero := decide (value.count = 0)
  (if zero then some 0 else read value.digits 0).bind fun first =>
    let w := w.put (digitChar first)
    (if 0 < precision then writeDigits (w.put '.') precision fun i => value.digitAt (i + 1)
      else some (if alt then w.put '.' else w)).map fun w =>
        writeExponent w (if zero then 0 else value.exponent - 1) uppercase

def writeGeneral (w : Writer) (value : Decimal) (precision : ℤ) (alt uppercase : Bool) :
    Option Writer :=
  let significant := if precision < 0 then 6 else if precision = 0 then 1 else precision
  (roundTo value significant).bind fun value =>
    let scientificExponent := if value.count = 0 then 0 else value.exponent - 1
    (if alt then some value.count else trimZeros value.digits value.count).bind fun count =>
      if -4 ≤ scientificExponent ∧ scientificExponent < significant then
        let fraction : ℤ :=
          if alt then significant - 1 - scientificExponent
          else
            let needed : ℤ := count - value.exponent
            if 0 < needed then needed else 0
        writeFixed w { value with count := count } fraction alt
      else
        let fraction : ℤ :=
          if alt then significant - 1 else if 0 < count then (count : ℤ) - 1 else 0
        writeScientific w { value with count := count } fraction alt uppercase

def writeFinite (w : Writer) (decimal : Decimal) (lower : Char) (precision : ℤ)
    (alt uppercase : Bool) : Option Writer :=
  let digits := if precision < 0 then 6 else precision
  if lower = 'e' then
    (roundTo decimal (digits + 1)).bind fun decimal =>
      writeScientific w decimal digits alt uppercase
  else if lower = 'g' then writeGeneral w decimal precision alt uppercase
  else
    (roundTo decimal (decimal.exponent + digits)).bind fun rounded =>
      let rounded := if rounded.count = 0 then { rounded with exponent := 1 } else rounded
      writeFixed w rounded digits alt

def formatFloatTo (capacity : Nat) (value : Binary64) (type : Char) (precision : ℤ) (sign : Char)
    (alt : Bool) : Option (List Char × Nat) :=
  let w : Writer := ⟨capacity, [], 0⟩
  let uppercase := decide ('A' ≤ type ∧ type ≤ 'Z')
  let lower := if uppercase then Char.ofNat (type.toNat - 'A'.toNat + 'a'.toNat) else type
  let negative := decide (value.bits / 2 ^ 63 ≠ 0)
  let biasedExponent : Nat := value.bits / 2 ^ 52 % 2 ^ 11
  let fraction := value.bits % 2 ^ 52
  if biasedExponent = 0x7FF then
    let w := writeNonFinite w negative sign (fraction ≠ 0) uppercase
    some (w.out, w.length)
  else
    let mantissa := if biasedExponent = 0 then fraction else fraction ||| 2 ^ 52
    let exponent2 : ℤ := if biasedExponent = 0 then -1074 else (biasedExponent : ℤ) - 1075
    let decimal := if mantissa = 0 then some ⟨buffer, 0, 1⟩ else expandExact mantissa exponent2
    (decimal.bind fun decimal => writeFinite (writeSign w negative sign) decimal lower precision
      alt uppercase).map fun w => (w.out, w.length)

end Checked

/-- The buffer starts with the digits. -/
structure Shows (a : Slots (Fin 10)) (ds : List (Fin 10)) : Prop where
  length : a.length = 800
  front : ∃ rest, a = ds.map some ++ rest

section Buffers

variable {a : Slots (Fin 10)} {ds es : List (Fin 10)} {i k : Nat}

theorem shows_buffer : Shows Checked.buffer [] := ⟨length_replicate, _, rfl⟩

theorem Shows.of_prefix (h : Shows a es) (hpre : ds <+: es) : Shows a ds := by
  obtain ⟨hlength, rest, rfl⟩ := h
  obtain ⟨more, rfl⟩ := hpre
  exact ⟨hlength, _, by rw [map_append, append_assoc]⟩

theorem Shows.read (h : Shows a ds) (hi : i < ds.length) :
    SlotArray.read a i = some (ds.getD i 0) := by
  obtain ⟨-, rest, rfl⟩ := h
  rw [SlotArray.read, getElem?_append_left (by rw [length_map]; exact hi),
    getElem?_map, getD_eq_getElem?_getD, getElem?_eq_getElem hi]
  rfl

theorem Shows.write (h : Shows a ds) (hroom : ds.length < 800) (d : Fin 10) :
    ∃ b, SlotArray.write a ds.length d = some b ∧ Shows b (ds ++ [d]) := by
  obtain ⟨hlength, rest, rfl⟩ := h
  cases rest with
  | nil =>
    rw [append_nil, length_map] at hlength
    omega
  | cons slot rest =>
    refine ⟨_, write_at (length_map _).symm d, ?_, rest, ?_⟩
    · rw [← hlength, length_append, length_append, length_cons, length_cons]
    · rw [map_append, append_assoc]
      rfl

theorem putGroup_checked (k group : Nat) (h : Shows a ds) (hroom : ds.length + k ≤ 800) :
    ∃ b, Checked.putGroup k group a ds.length = some (b, ds.length + k) ∧
      Shows b (ds ++ groupDigits k group) := by
  induction k generalizing group a ds with
  | zero => exact ⟨a, rfl, by rwa [groupDigits, append_nil]⟩
  | succ k ih =>
    obtain ⟨b, hwrite, hshows⟩ := h.write (by omega) (Fin.ofNat 10 group)
    have hlength : (ds ++ [Fin.ofNat 10 group]).length = ds.length + 1 := by simp
    obtain ⟨c, hput, hgroup⟩ := ih (group / 10) hshows (by omega)
    refine ⟨c, ?_, ?_⟩
    · rw [Checked.putGroup, hwrite, bind_some, ← hlength, hput]
      congr 2
      omega
    · rwa [append_assoc, singleton_append] at hgroup

theorem length_groupDigits (k group : Nat) : (groupDigits k group).length = k := by
  rw [groupDigits_eq, length_reverse, length_padded]

theorem extractDigits_checked {fuel n : Nat} {x : BigUInt} (h : x.Holds n) (hfuel : n < 2 ^ fuel)
    (hgroups : n < 1000000000 ^ k) (hshows : Shows a ds) (hroom : ds.length + 9 * k ≤ 800) :
    ∃ b, Checked.extractDigits fuel x a ds.length =
        some (b, (ds ++ extractDigits fuel x).length) ∧ Shows b (ds ++ extractDigits fuel x) := by
  induction fuel generalizing x n a ds k with
  | zero =>
    have hzero : n = 0 := by simpa using hfuel
    rw [Checked.extractDigits, if_pos (h.isZero_iff.mpr hzero), extractDigits, append_nil]
    exact ⟨a, rfl, hshows⟩
  | succ fuel ih =>
    rw [Checked.extractDigits, extractDigits]
    by_cases hzero : x.isZero = true
    · rw [if_pos hzero, if_pos hzero, append_nil]
      exact ⟨a, rfl, hshows⟩
    · rw [if_neg hzero, if_neg hzero]
      have hpos : n ≠ 0 := fun hn => hzero (h.isZero_iff.mpr hn)
      obtain ⟨hquot, -⟩ := h.divModSmall (show 0 < 1000000000 by norm_num)
      cases k with
      | zero => exact absurd hgroups (by rw [pow_zero]; omega)
      | succ k =>
        have hdiv : n / 1000000000 < 2 ^ fuel := by
          omega
        have hrest : n / 1000000000 < 1000000000 ^ k := by
          exact Nat.div_lt_of_lt_mul (by rwa [Nat.mul_comm])
        obtain ⟨b, hput, hgroup⟩ :=
          putGroup_checked 9 (x.divModSmall 1000000000).2 hshows (by omega)
        have hlength : (ds ++ groupDigits 9 (x.divModSmall 1000000000).2).length =
            ds.length + 9 := by rw [length_append, length_groupDigits]
        obtain ⟨c, hextract, hall⟩ := ih hquot hdiv hrest hgroup (by omega)
        dsimp only
        rw [hput, bind_some, ← hlength]
        rw [append_assoc] at hextract hall
        exact ⟨c, hextract, hall⟩

theorem trimZeros_checked (h : Shows a ds) :
    Checked.trimZeros a ds.length = some (ds.rdropWhile (· = 0)).length := by
  induction ds using reverseRecOn with
  | nil => rfl
  | append_singleton ds d ih =>
    have hlength : (ds ++ [d]).length = ds.length + 1 := by simp
    have hread := h.read (show ds.length < (ds ++ [d]).length by omega)
    rw [getD_eq_getElem?_getD, getElem?_concat_length, getD_some] at hread
    rw [hlength, Checked.trimZeros, hread, bind_some]
    by_cases hzero : d = 0
    · rw [if_pos hzero, ih (h.of_prefix (prefix_append _ _)),
        rdropWhile_concat_pos _ _ _ (by simpa using hzero)]
    · rw [if_neg hzero, rdropWhile_concat_neg _ _ _ (by simpa using hzero), hlength]

theorem copyReversed_checked (h : Shows a ds) :
    ∃ b, Checked.copyReversed a ds.length = some b ∧ Shows b ds.reverse := by
  have hroom : ds.length ≤ 800 := by
    obtain ⟨hlength, rest, rfl⟩ := h
    rw [length_append, length_map] at hlength
    omega
  have hprefix : ∀ k ≤ ds.length, ∃ b, (range k).foldlM
      (fun digits i => (SlotArray.read a (ds.length - 1 - i)).bind (SlotArray.write digits i))
        Checked.buffer = some b ∧ Shows b (ds.reverse.take k) := by
    intro k hk
    induction k with
    | zero => exact ⟨_, rfl, shows_buffer⟩
    | succ k ih =>
      obtain ⟨b, hfold, hshows⟩ := ih (by omega)
      have hlength : (ds.reverse.take k).length = k := by
        rw [length_take, length_reverse]
        omega
      have hread := h.read (show ds.length - 1 - k < ds.length by omega)
      obtain ⟨c, hwrite, hnext⟩ := hshows.write (by omega) (ds.getD (ds.length - 1 - k) 0)
      have hk' : k < ds.reverse.length := by
        rw [length_reverse]
        omega
      have hdigit : ds.reverse[k] = ds.getD (ds.length - 1 - k) 0 := by
        rw [getElem_reverse, getD_eq_getElem?_getD, getElem?_eq_getElem (by omega),
          getD_some]
      refine ⟨c, ?_, ?_⟩
      · rw [range_succ, foldlM_append, hfold]
        rw [hlength] at hwrite
        simp only [bind_eq_bind, bind_some, foldlM_cons, hread, hwrite]
        rfl
      · rwa [take_succ_eq_append_getElem hk', hdigit]
  obtain ⟨b, hcopy, hshows⟩ := hprefix ds.length le_rfl
  rw [take_of_length_le (by rw [length_reverse])] at hshows
  exact ⟨b, hcopy, hshows⟩

end Buffers

section Expansion

variable {x : BigUInt} {n mantissa power : Nat} {exponent2 : ℤ}

theorem mulFives_checked (h : x.Holds n) (hlt : n * 5 ^ power < BigUInt.capacity) :
    Checked.mulFives power x = some (mulFives power x) := by
  induction power using Nat.strong_induction_on generalizing x n with
  | _ power ih =>
    by_cases hmany : 13 ≤ power
    · obtain ⟨rest, rfl⟩ := Nat.exists_eq_add_of_le' hmany
      have hsplit : n * 5 ^ (rest + 13) = n * 1220703125 * 5 ^ rest := by
        ring
      rw [hsplit] at hlt
      have hchunk : n * 1220703125 < BigUInt.capacity :=
        (Nat.le_mul_of_pos_right _ (by positivity)).trans_lt hlt
      rw [Checked.mulFives, h.checkedMulSmall (by norm_num) hchunk, bind_some]
      exact ih rest (by omega) (h.mulSmall (by norm_num) hchunk) hlt
    · have hsmall : ∀ rest, power ≠ rest + 13 := fun rest heq => by omega
      rw [Checked.mulFives, mulFives]
      · by_cases hzero : power = 0
        · rw [if_neg (not_not.mpr hzero), if_neg (not_not.mpr hzero)]
        · have htable : kPow5Table[power]? = some (5 ^ power) := by
            have hall : ∀ power < 13, kPow5Table[power]? = some (5 ^ power) := by decide
            exact hall power (by omega)
          rw [if_pos hzero, if_pos hzero, htable, kPow5Table_getD (by omega)]
          exact h.checkedMulSmall (by positivity) hlt
      · exact hsmall
      · exact hsmall

/-- The decimal over its buffer. -/
structure Agrees (v : Checked.Decimal) (d : Decimal) : Prop where
  shows : Shows v.digits d.digits
  count : v.count = d.count
  exponent : v.exponent = d.exponent

theorem scaled_checked (hm : mantissa < 2 ^ 53) (hlow : -1074 ≤ exponent2)
    (hhigh : exponent2 ≤ 971) : ∃ x n, Checked.scaled mantissa exponent2 = some x ∧
      x = (if 0 ≤ exponent2 then (setU64 mantissa).shiftLeft exponent2
        else mulFives (-exponent2).toNat (setU64 mantissa)) ∧
      x.Holds n ∧ n < BigUInt.capacity ∧ n < 1000000000 ^ 88 := by
  have hset := holds_setU64 (hm.trans (by norm_num))
  have hgroups : (1000000000 : ℕ) ^ 88 < BigUInt.capacity := by decide +kernel
  unfold Checked.scaled
  dsimp only
  by_cases hsign : 0 ≤ exponent2
  · obtain ⟨e, rfl⟩ := Int.eq_ofNat_of_zero_le hsign
    have hfit : mantissa * 2 ^ e < 1000000000 ^ 88 := by
      have hmax : 2 ^ 53 * 2 ^ 971 < 1000000000 ^ 88 := by decide +kernel
      have hle : e ≤ 971 := by omega
      exact (mul_pow_le_mul_pow (by norm_num) hm.le hle).trans_lt hmax
    rw [if_pos hsign]
    exact ⟨_, _, hset.checkedShiftLeft (hfit.trans hgroups), rfl,
      hset.shiftLeft (hfit.trans hgroups), hfit.trans hgroups, hfit⟩
  · obtain ⟨e, rfl⟩ : ∃ e : ℕ, exponent2 = -(e : ℤ) := ⟨(-exponent2).toNat, by omega⟩
    have hfit : mantissa * 5 ^ e < 1000000000 ^ 88 := by
      have hmax : 2 ^ 53 * 5 ^ 1074 < 1000000000 ^ 88 := by decide +kernel
      have hle : e ≤ 1074 := by omega
      exact (mul_pow_le_mul_pow (by norm_num) hm.le hle).trans_lt hmax
    rw [if_neg hsign, if_neg hsign, neg_neg]
    exact ⟨_, _, mulFives_checked hset (hfit.trans hgroups), rfl,
      mulFives_holds hset (hfit.trans hgroups), hfit.trans hgroups, hfit⟩

theorem expandExact_checked (hm : mantissa < 2 ^ 53) (hlow : -1074 ≤ exponent2)
    (hhigh : exponent2 ≤ 971) : ∃ v, Checked.expandExact mantissa exponent2 = some v ∧
      Agrees v (expandExact mantissa exponent2) := by
  obtain ⟨x, n, hscaled, hx, hholds, hcapacity, hgroups⟩ := scaled_checked hm hlow hhigh
  have hfuel : BigUInt.capacity = 2 ^ (kMaxLimbs * kLimbBits) := by
    rw [BigUInt.capacity, ← pow_mul, Nat.mul_comm]
  rw [hfuel] at hcapacity
  obtain ⟨a, hextract, hshows⟩ :=
    extractDigits_checked hholds hcapacity hgroups shows_buffer (by norm_num)
  rw [nil_append] at hextract hshows
  have htrim := trimZeros_checked hshows
  have hkept : (extractDigits (kMaxLimbs * kLimbBits) x).rdropWhile (· = 0) <+:
      extractDigits (kMaxLimbs * kLimbBits) x := rdropWhile_prefix _ _
  obtain ⟨b, hcopy, hreversed⟩ := copyReversed_checked (hshows.of_prefix hkept)
  refine ⟨⟨b, ((extractDigits (kMaxLimbs * kLimbBits) x).rdropWhile (· = 0)).length,
    ((extractDigits (kMaxLimbs * kLimbBits) x).rdropWhile (· = 0)).length -
      if 0 ≤ exponent2 then 0 else -exponent2⟩, ?_, ?_⟩
  · rw [Checked.expandExact, hscaled]
    rw [length_nil] at hextract
    simp only [bind_eq_bind, bind_some, hextract, htrim, hcopy]
  · rw [expandExact, ← hx]
    exact ⟨hreversed, (length_reverse).symm, rfl⟩

end Expansion

section Rounding

variable {a : Slots (Fin 10)} {ds : List (Fin 10)} {v : Checked.Decimal} {d : Decimal} {k : Nat}

theorem anyNonzero_checked (h : Shows a ds) {i : Nat} (hi : i + k = ds.length) :
    Checked.anyNonzero a i k = some ((ds.drop i).any (· ≠ 0)) := by
  induction k generalizing i with
  | zero =>
    rw [drop_eq_nil_of_le (by omega)]
    rfl
  | succ k ih =>
    have hlt : i < ds.length := by omega
    rw [Checked.anyNonzero, h.read hlt, bind_some, drop_eq_getElem_cons hlt,
      any_cons, getD_eq_getElem?_getD, getElem?_eq_getElem hlt, getD_some]
    by_cases hzero : ds[i] = 0
    · rw [if_neg (not_not.mpr hzero), ih (by omega)]
      simp [hzero]
    · simp [hzero]

theorem roundsUp_checked (h : Shows a ds) {keep : Nat} (hkeep : keep < ds.length) :
    Checked.roundsUp a ds.length keep = some (roundsUp ds keep) := by
  have hany := anyNonzero_checked h (show keep + 1 + (ds.length - (keep + 1)) = ds.length by omega)
  rw [Checked.roundsUp, roundsUp, h.read hkeep, bind_some]
  by_cases hup : 5 < ds.getD keep 0
  · rw [if_pos hup, if_pos hup]
  rw [if_neg hup, if_neg hup]
  by_cases hdown : ds.getD keep 0 < 5
  · rw [if_pos hdown, if_pos hdown]
  rw [if_neg hdown, if_neg hdown, hany]
  cases (ds.drop (keep + 1)).any (· ≠ 0) with
  | true => rfl
  | false =>
    rw [Bool.false_or]
    by_cases hpos : 0 < keep
    · rw [if_pos hpos, h.read (show keep - 1 < ds.length by omega), decide_eq_true hpos]
      simp
    · rw [if_neg hpos, decide_eq_false hpos]
      rfl

theorem carryUp_concat (ds : List (Fin 10)) (d : Fin 10) : carryUp (ds ++ [d]) =
      if d ≠ 9 then (ds ++ [d + 1], false) else ((carryUp ds).1 ++ [0], (carryUp ds).2) := by
  induction ds with
  | nil => rfl
  | cons c ds ih =>
    rw [cons_append, carryUp, ih]
    by_cases hnine : d = 9
    · rw [if_neg (not_not.mpr hnine), if_neg (not_not.mpr hnine), carryUp]
      split
      · split <;> rfl
      · rfl
    · rw [if_pos hnine, if_pos hnine]
      rfl

theorem carryUp_checked (ds : List (Fin 10)) (rest : Slots (Fin 10)) :
    Checked.carryUp ds.length (ds.map some ++ rest) =
      some ((carryUp ds).1.map some ++ rest, (carryUp ds).2) := by
  induction ds using reverseRecOn generalizing rest with
  | nil => rfl
  | append_singleton ds d ih =>
    have hfront : ds.length = (ds.map some).length := (length_map _).symm
    have hcells : (ds ++ [d]).map some ++ rest = ds.map some ++ some d :: rest := by
      rw [map_append, append_assoc]
      rfl
    rw [length_append, length_singleton, Checked.carryUp, hcells, read_at hfront,
      bind_some, carryUp_concat]
    by_cases hnine : d = 9
    · rw [if_neg (not_not.mpr hnine), if_neg (not_not.mpr hnine), write_at hfront,
        bind_some, ih, map_append, append_assoc]
      rfl
    · rw [if_pos hnine, if_pos hnine, write_at hfront, map_append, append_assoc]
      rfl

theorem carryUp_past {ds : List (Fin 10)} (h : (carryUp ds).2 = true) (hne : ds ≠ []) :
    ∃ es, (carryUp ds).1 = 0 :: es := by
  cases ds with
  | nil => exact absurd rfl hne
  | cons c ds =>
    rw [carryUp] at h ⊢
    by_cases hrest : (carryUp ds).2 = true
    · rw [if_pos hrest] at h ⊢
      by_cases hnine : c = 9
      · rw [if_neg (not_not.mpr hnine)]
        exact ⟨_, rfl⟩
      · rw [if_pos hnine] at h
        cases h
    · rw [if_neg hrest] at h
      cases h

theorem roundTo_checked (h : Agrees v d) (keep : ℤ) :
    ∃ v', Checked.roundTo v keep = some v' ∧ Agrees v' (roundTo d keep) := by
  unfold Checked.roundTo roundTo
  rw [h.count]
  by_cases hlong : (d.count : ℤ) ≤ keep
  · rw [if_pos hlong, if_pos hlong]
    exact ⟨v, rfl, h⟩
  rw [if_neg hlong, if_neg hlong]
  by_cases hneg : keep < 0
  · rw [if_pos hneg, if_pos hneg]
    exact ⟨_, rfl, h.shows.of_prefix nil_prefix, rfl, h.exponent⟩
  rw [if_neg hneg]
  obtain ⟨k, rfl⟩ := Int.eq_ofNat_of_zero_le (not_lt.mp hneg)
  have hk : k < d.digits.length := by
    have hcount : d.count = d.digits.length := rfl
    omega
  have hup := roundsUp_checked h.shows hk
  have hlength : (d.digits.take k).length = k := by
    rw [length_take]
    omega
  rw [Int.toNat_natCast, show d.count = d.digits.length from rfl, hup, bind_some]
  dsimp only
  cases roundsUp d.digits k with
  | false =>
    exact ⟨_, rfl, h.shows.of_prefix <| take_prefix _ _, hlength.symm, h.exponent⟩
  | true =>
    obtain ⟨hcells, rest, hrest⟩ := h.shows.of_prefix <| take_prefix k d.digits
    have hcarry := carryUp_checked (d.digits.take k) rest
    have hsame := length_carryUp (d.digits.take k)
    rw [hlength, ← hrest] at hcarry
    rw [if_pos rfl, hcarry, bind_some]
    have hcarried : ((carryUp (d.digits.take k)).1.map some ++ rest).length = 800 := by
      rw [← hcells, hrest, length_append, length_append, length_map,
        length_map, hsame]
    cases hpast : (carryUp (d.digits.take k)).2 with
    | false =>
      refine ⟨_, rfl, ⟨hcarried, rest, rfl⟩, ?_, h.exponent⟩
      exact (hsame.trans hlength).symm
    | true =>
      rw [if_pos rfl]
      by_cases hzero : k = 0
      · subst hzero
        have hshows : Shows rest [] := ⟨by simpa [carryUp] using hcarried, rest, rfl⟩
        obtain ⟨b, hwrite, hone⟩ := hshows.write (by norm_num) 1
        refine ⟨⟨b, 1, v.exponent + 1⟩, ?_, hone, rfl, congrArg (· + 1) h.exponent⟩
        exact congrArg (Option.map _) hwrite
      · have hne : d.digits.take k ≠ [] := by
          intro hnil
          rw [hnil, length_nil] at hlength
          omega
        obtain ⟨es, hes⟩ := carryUp_past hpast hne
        rw [hes] at hcarried hsame ⊢
        rw [if_pos (by omega)]
        have hwrite : SlotArray.write (some 0 :: (es.map some ++ rest)) 0 (1 : Fin 10) =
            some (some 1 :: (es.map some ++ rest)) := write_at (f := []) rfl 1
        refine ⟨_, congrArg (Option.map _) hwrite, ⟨hcarried, rest, rfl⟩, ?_,
          congrArg (· + 1) h.exponent⟩
        rw [← hlength, ← hsame]
        rfl

end Rounding

section Writing

variable {w : Writer} {v : Checked.Decimal} {d : Decimal} {precision : ℤ} {alt uppercase : Bool}

theorem Agrees.digitAt (h : Agrees v d) (index : ℤ) : v.digitAt index = some (d.digitAt index) := by
  rw [Checked.Decimal.digitAt, Decimal.digitAt, h.count]
  by_cases hin : 0 ≤ index ∧ index < (d.count : ℤ)
  · have hlt : index.toNat < d.digits.length := by
      have hcount : d.count = d.digits.length := rfl
      omega
    rw [if_pos hin, if_pos hin, h.shows.read hlt]
  · rw [if_neg hin, if_neg hin]

theorem writeDigits_checked {checked : ℤ → Option (Fin 10)} {digit : ℤ → Fin 10}
    (h : ∀ i, checked i = some (digit i)) (w : Writer) (times : ℤ) :
    Checked.writeDigits w times checked = some (writeDigits w times digit) := by
  unfold Checked.writeDigits writeDigits
  generalize range times.toNat = is
  induction is generalizing w with
  | nil => rfl
  | cons i is ih =>
    rw [foldlM_cons, foldl_cons, h]
    exact ih _

theorem writeFixed_checked (h : Agrees v d) (w : Writer) (precision : ℤ) (alt : Bool) :
    Checked.writeFixed w v precision alt = some (writeFixed w d precision alt) := by
  have hfraction : ∀ w : Writer, (if precision ≤ 0 then some (if alt then w.put '.' else w)
      else Checked.writeDigits (w.put '.') precision fun k =>
        v.digitAt (v.exponent + (k + 1) - 1)) =
      some (if precision ≤ 0 then if alt then w.put '.' else w
        else writeDigits (w.put '.') precision fun k => d.digitAt (d.exponent + (k + 1) - 1)) := by
    intro w
    split
    · rfl
    · rw [h.exponent]
      exact writeDigits_checked (fun k => h.digitAt _) _ _
  unfold Checked.writeFixed writeFixed
  rw [h.exponent] at hfraction ⊢
  split
  · exact hfraction _
  · rw [writeDigits_checked h.digitAt]
    exact hfraction _

theorem writeScientific_checked (h : Agrees v d) (w : Writer) (precision : ℤ)
    (alt uppercase : Bool) : Checked.writeScientific w v precision alt uppercase =
      some (writeScientific w d precision alt uppercase) := by
  have hfirst : (if decide (v.count = 0) then some 0 else SlotArray.read v.digits 0) =
      some (if decide (d.count = 0) then 0 else d.digitAt 0) := by
    rw [h.count]
    by_cases hzero : d.count = 0
    · simp [hzero]
    · have hpos : 0 < d.digits.length := Nat.pos_of_ne_zero hzero
      have hdigit : d.digitAt 0 = d.digits.getD 0 0 := if_pos ⟨le_rfl, by exact_mod_cast hpos⟩
      rw [if_neg (by simpa using hzero), if_neg (by simpa using hzero), hdigit]
      exact h.shows.read hpos
  have hrest : ∀ w : Writer, (if 0 < precision then
      Checked.writeDigits (w.put '.') precision fun i => v.digitAt (i + 1)
      else some (if alt then w.put '.' else w)) =
      some (if 0 < precision then writeDigits (w.put '.') precision fun i => d.digitAt (i + 1)
        else if alt then w.put '.' else w) := by
    intro w
    split
    · exact writeDigits_checked (fun i => h.digitAt _) _ _
    · rfl
  unfold Checked.writeScientific writeScientific
  dsimp only
  rw [hfirst, bind_some, hrest, map_some, h.count, h.exponent]

theorem writeGeneral_checked (h : Agrees v d) (w : Writer) (precision : ℤ)
    (alt uppercase : Bool) : Checked.writeGeneral w v precision alt uppercase =
      some (writeGeneral w d precision alt uppercase) := by
  unfold Checked.writeGeneral writeGeneral
  dsimp only
  generalize (if precision < 0 then (6 : ℤ) else if precision = 0 then 1 else precision) =
    significant
  obtain ⟨v', hround, h'⟩ := roundTo_checked h significant
  rw [hround, bind_some, h'.count, h'.exponent]
  generalize roundTo d significant = d' at h' ⊢
  have htrim : (if alt then some d'.count else Checked.trimZeros v'.digits d'.count) =
      some (if alt then d' else { d' with digits := d'.digits.rdropWhile (· = 0) }).count := by
    cases alt with
    | true => rfl
    | false => exact trimZeros_checked h'.shows
  have hagrees : Agrees ⟨v'.digits,
      (if alt then d' else { d' with digits := d'.digits.rdropWhile (· = 0) }).count, d'.exponent⟩
      (if alt then d' else { d' with digits := d'.digits.rdropWhile (· = 0) }) := by
    cases alt with
    | true => exact ⟨h'.shows, rfl, rfl⟩
    | false => exact ⟨h'.shows.of_prefix <| rdropWhile_prefix _ _, rfl, rfl⟩
  have hexponent : (if alt then d'
      else { d' with digits := d'.digits.rdropWhile (· = 0) }).exponent = d'.exponent := by
    cases alt <;> rfl
  rw [htrim, bind_some, hexponent]
  generalize (if alt then d' else { d' with digits := d'.digits.rdropWhile (· = 0) }) = d'' at *
  generalize (if d'.count = 0 then 0 else d'.exponent - 1) = scientificExponent
  split
  · exact writeFixed_checked hagrees _ _ _
  · exact writeScientific_checked hagrees _ _ _ _

theorem writeFinite_checked (h : Agrees v d) (w : Writer) (lower : Char) (precision : ℤ)
    (alt uppercase : Bool) : Checked.writeFinite w v lower precision alt uppercase =
      some (writeFinite w d lower precision alt uppercase) := by
  unfold Checked.writeFinite writeFinite
  dsimp only
  generalize (if precision < 0 then (6 : ℤ) else precision) = digits
  split
  · obtain ⟨v', hround, h'⟩ := roundTo_checked h (digits + 1)
    rw [hround]
    exact writeScientific_checked h' _ _ _ _
  split
  · exact writeGeneral_checked h _ _ _ _
  · obtain ⟨v', hround, h'⟩ := roundTo_checked h (d.exponent + digits)
    rw [h.exponent, hround, bind_some, h'.count]
    refine writeFixed_checked ?_ _ _ _
    split
    · exact ⟨h'.shows, rfl, rfl⟩
    · exact h'

theorem formatFloatTo_checked (capacity : Nat) (value : Binary64) (type : Char) (precision : ℤ)
    (sign : Char) (alt : Bool) : Checked.formatFloatTo capacity value type precision sign alt =
      some (formatFloatTo capacity value type precision sign alt) := by
  have hexponent : value.bits / 2 ^ 52 % 2 ^ 11 < 2 ^ 11 := Nat.mod_lt _ (by norm_num)
  have hfraction : value.bits % 2 ^ 52 < 2 ^ 52 := Nat.mod_lt _ (by norm_num)
  unfold Checked.formatFloatTo formatFloatTo
  dsimp only
  generalize value.bits / 2 ^ 52 % 2 ^ 11 = biased at *
  generalize value.bits % 2 ^ 52 = fraction at *
  by_cases hspecial : biased = 0x7FF
  · rw [if_pos hspecial, if_pos hspecial]
  rw [if_neg hspecial, if_neg hspecial]
  have hmantissa : (if biased = 0 then fraction else fraction ||| 2 ^ 52) < 2 ^ 53 := by
    split
    · omega
    · exact Nat.or_lt_two_pow (by omega) (by norm_num)
  have hlow : (-1074 : ℤ) ≤ if biased = 0 then -1074 else (biased : ℤ) - 1075 := by
    split <;> omega
  have hhigh : (if biased = 0 then -1074 else (biased : ℤ) - 1075) ≤ 971 := by
    split <;> omega
  generalize (if biased = 0 then fraction else fraction ||| 2 ^ 52) = mantissa at *
  generalize (if biased = 0 then -1074 else (biased : ℤ) - 1075) = exponent2 at *
  by_cases hzero : mantissa = 0
  · have hagrees : Agrees ⟨Checked.buffer, 0, 1⟩ ⟨[], 1⟩ := ⟨shows_buffer, rfl, rfl⟩
    rw [if_pos hzero, if_pos hzero, bind_some, writeFinite_checked hagrees]
    rfl
  · obtain ⟨v, hexpand, hagrees⟩ := expandExact_checked hmantissa hlow hhigh
    rw [if_neg hzero, if_neg hzero, hexpand, bind_some, writeFinite_checked hagrees]
    rfl

/-- Neither conversion drops a limb or leaves a buffer or a table. -/
theorem conversions_checked : (∀ capacity value type precision sign alt,
      Checked.formatFloatTo capacity value type precision sign alt =
        some (formatFloatTo capacity value type precision sign alt)) ∧
      ∀ text, NumberParse.Checked.parseFloat text = some (NumberParse.parseFloat text) :=
  ⟨formatFloatTo_checked, NumberParse.parseFloat_checked⟩

end Writing

end Equilibrium.FloatFormat
