import Equilibrium.Text.CodeConvertRoundTrip

/-! The conversions of sources of every length: how much is written and where, and what an
`int32_t` makes of the length. -/

namespace Equilibrium.CodeConvert

open Library Library.CodeForm List

/-- The conversions that use `Convert`, with a `wchar_t` of 32 bits, and the one that only a
`wchar_t` of 16 bits adds. -/
inductive Conversion
  | utf8ToUtf16
  | utf8ToWide
  | char8ToWide
  | char8ToWide16
  | utf16ToUtf8
  | utf16ToWide
  | wideToUtf8
  | wideToUtf16
  deriving DecidableEq

namespace Conversion

def src : Conversion → SrcChar
  | utf8ToUtf16 | utf8ToWide => srcUtf8
  | char8ToWide | char8ToWide16 => srcChar8
  | utf16ToUtf8 | utf16ToWide => srcUtf16
  | wideToUtf8 | wideToUtf16 => srcWide

def dest : Conversion → DestChar
  | utf8ToUtf16 | char8ToWide16 | wideToUtf16 => char16
  | utf8ToWide | char8ToWide | utf16ToWide => char32
  | utf16ToUtf8 | wideToUtf8 => char8

/-- The form of the source. -/
def sourceForm : Conversion → CodeForm ℕ
  | utf8ToUtf16 | utf8ToWide | char8ToWide | char8ToWide16 => utf8
  | utf16ToUtf8 | utf16ToWide => utf16
  | wideToUtf8 | wideToUtf16 => utf32

def destForm : Conversion → CodeForm ℕ
  | utf8ToUtf16 | char8ToWide16 | wideToUtf16 => utf16
  | utf8ToWide | char8ToWide | utf16ToWide => utf32
  | utf16ToUtf8 | wideToUtf8 => utf8

theorem decodes (k : Conversion) : Decodes k.sourceForm k.src := by
  have hchar8 : Decodes utf8 srcChar8 :=
    ⟨.inl rfl, fun _ hne hs => takes_nextUtf8 hs hne, utf8Units_ascii⟩
  cases k
  case utf8ToUtf16 => exact decodes_utf8
  case utf8ToWide => exact decodes_utf8
  case char8ToWide => exact hchar8
  case char8ToWide16 => exact hchar8
  case utf16ToUtf8 => exact decodes_utf16
  case utf16ToWide => exact decodes_utf16
  case wideToUtf8 => exact decodes_utf32
  case wideToUtf16 => exact decodes_utf32

theorem encodes (k : Conversion) : Encodes k.destForm k.dest := by
  cases k
  case utf8ToUtf16 => exact encodes_char16
  case utf8ToWide => exact encodes_char32
  case char8ToWide => exact encodes_char32
  case char8ToWide16 => exact encodes_char16
  case utf16ToUtf8 => exact encodes_char8
  case utf16ToWide => exact encodes_char32
  case wideToUtf8 => exact encodes_char8
  case wideToUtf16 => exact encodes_char16

theorem fits (k : Conversion) : Fits k.sourceForm k.destForm k.src k.dest := by
  cases k
  case utf8ToUtf16 => exact fits_utf8_utf16
  case utf8ToWide => exact fits_utf8_utf32
  case char8ToWide => exact ⟨fits_utf8_utf32.size, fits_utf8_utf32.replace⟩
  case char8ToWide16 => exact ⟨fits_utf8_utf16.size, fits_utf8_utf16.replace⟩
  case utf16ToUtf8 => exact fits_utf16_utf8
  case utf16ToWide => exact fits_utf16_utf32
  case wideToUtf8 => exact fits_utf32_utf8
  case wideToUtf16 => exact fits_utf32_utf16

end Conversion

/-- The units of a source, which lie in one array: a pointer difference holds its size. -/
structure Source (src : SrcChar) where
  units : List ℕ
  inRange : ∀ u ∈ units, u < 2 ^ (8 * src.width)
  addressable : units.length * src.width < 2 ^ 63

variable {k : Conversion} (s : Source k.src)

namespace Source

def Ascii {src : SrcChar} (s : Source src) : Prop := ∀ u ∈ s.units, u < 0x80

instance {src : SrcChar} (s : Source src) : Decidable s.Ascii :=
  inferInstanceAs (Decidable (∀ u ∈ s.units, u < 0x80))

theorem product_lt : s.units.length * sizeCoefficient k.src k.dest < 2 ^ 64 := by
  have haddress := s.addressable
  have hcoefficient : sizeCoefficient k.src k.dest ≤ 2 * k.src.width := by cases k <;> decide
  have hmul := Nat.mul_le_mul_left s.units.length hcoefficient
  rw [Nat.mul_left_comm] at hmul
  omega

end Source

theorem le_product (src : SrcChar) (dest : DestChar) (n : ℕ) : n ≤ n * sizeCoefficient src dest := by
  refine Nat.le_mul_of_pos_right n ?_
  unfold sizeCoefficient
  split_ifs <;> decide

theorem reserved_eq : reserved k.src k.dest s.units.length =
    s.units.length * sizeCoefficient k.src k.dest := Nat.mod_eq_of_lt s.product_lt

theorem Source.doIsStringAscii_iff (offset : ℕ) :
    doIsStringAscii k.src.width k.src.signed offset s.units = true ↔ s.Ascii :=
  CodeConvert.doIsStringAscii_iff k.decodes.isWidth offset s.inRange

/-! The writes. -/

theorem castInt32_le (n : ℕ) : castInt32 n ≤ n := by
  have hmod : (n : ℤ) % (2 ^ 32 : ℕ) ≤ n := Int.ofNat_le.mpr (Nat.mod_le n (2 ^ 32))
  unfold castInt32 Int.bmod
  dsimp only
  split <;> omega

theorem length_unitWrites (size : ℕ) (us : List ℕ) : (unitWrites size us).length = us.length := by
  induction us generalizing size with
  | nil => rfl
  | cons u us ih => rw [unitWrites, length_cons, length_cons, ih]

theorem map_unitWrites (size : ℕ) (us : List ℕ) : (unitWrites size us).map (·.2) = us := by
  induction us generalizing size with
  | nil => rfl
  | cons u us ih => rw [unitWrites, map_cons, ih]

theorem lt_of_mem_unitWrites {size : ℕ} {us : List ℕ} :
    ∀ w ∈ unitWrites size us, w.1 < ((size + us.length : ℕ) : ℤ) := by
  induction us generalizing size with
  | nil => exact fun w hw => absurd hw not_mem_nil
  | cons u us ih =>
    intro w hw
    rw [length_cons]
    obtain rfl | hw := mem_cons.mp hw
    · have hle := castInt32_le size
      omega
    · have := ih w hw
      omega

theorem convert_eq (offset : ℕ) : convert k.src k.dest offset s.units =
      if s.Ascii then convertAscii k.dest s.units else convertDecoded k.src k.dest s.units := by
  have hascii := s.doIsStringAscii_iff offset
  rw [convert]
  by_cases hnil : s.units.length = 0
  case pos =>
    have hunits := length_eq_zero_iff.mp hnil
    have hempty : s.Ascii := by
      rw [Source.Ascii, hunits]
      exact fun u hu => absurd hu not_mem_nil
    rw [if_pos hnil, if_pos hempty, convertAscii_eq k.encodes hempty, if_pos (by omega), hunits]
  case neg =>
    rw [if_neg hnil]
    simp only [hascii]

theorem exists_decoded : ∃ cs, k.sourceForm.Parts (counted s.units) cs ∧
    loopWrites k.src.next k.dest.append s.units.length 0 (counted s.units) =
      unitWrites 0 (k.destForm.encodeAll (replaced cs)) ∧
    (Counts k.src k.dest s.units.length (k.destForm.encodeAll (replaced cs)).length →
      convertDecoded k.src k.dest s.units =
        some (cs.all (·.isSome), k.destForm.encodeAll (replaced cs))) ∧
    (¬Counts k.src k.dest s.units.length (k.destForm.encodeAll (replaced cs)).length →
      convertDecoded k.src k.dest s.units = none) :=
  exists_convertDecoded k.decodes k.encodes k.fits s.inRange s.product_lt

/-- The writes of a conversion are inside the destination. Only a destination that no string can
have, or a length or a text that an `int32_t` cannot count, keep it from its result. -/
structure Bounded (k : Conversion) (s : Source k.src) (offset : ℕ) (writes : List (ℤ × ℕ)) :
    Prop where
  inside : ∀ w ∈ writes, w.1 < destLength k.src k.dest offset s.units
  length_le : writes.length ≤ s.units.length * sizeCoefficient k.src k.dest
  written : ∀ ok out, convert k.src k.dest offset s.units = some (ok, out) →
    out = writes.map (·.2)
  stopped : convert k.src k.dest offset s.units = none →
    kMaxCapacity k.dest.width < destLength k.src k.dest offset s.units ∨
      srcLen k.src s.units.length = none ∨ 2 ^ 31 ≤ writes.length

theorem length_asciiWrites (dest : DestChar) (us : List ℕ) :
    (asciiWrites dest us).length = us.length := by
  rw [asciiWrites, length_map, length_zipIdx]

theorem lt_of_mem_asciiWrites {dest : DestChar} {us : List ℕ} :
    ∀ w ∈ asciiWrites dest us, w.1 < (us.length : ℤ) := by
  intro w hw
  obtain ⟨r, hr, rfl⟩ := mem_map.mp hw
  have hlt := snd_lt_of_mem_zipIdx hr
  omega

theorem map_asciiWrites (dest : DestChar) (us : List ℕ) :
    (asciiWrites dest us).map (·.2) = us.map (· % 2 ^ (8 * dest.width)) := by
  have hfst : us.zipIdx.map Prod.fst = us := zipIdx_map_fst 0 us
  rw [asciiWrites, map_map]
  conv => rhs; rw [← hfst, map_map]
  rfl

theorem bounded_ascii (offset : ℕ) (hascii : s.Ascii) :
    Bounded k s offset (asciiWrites k.dest s.units) := by
  have hcheck := (s.doIsStringAscii_iff offset).mpr hascii
  have hlength : destLength k.src k.dest offset s.units = s.units.length := if_pos hcheck
  have hrun : convert k.src k.dest offset s.units = convertAscii k.dest s.units := by
    rw [convert_eq, if_pos hascii]
  constructor
  case inside =>
    rw [hlength]
    exact lt_of_mem_asciiWrites
  case length_le =>
    rw [length_asciiWrites]
    exact le_product _ _ _
  case written =>
    intro ok out hout
    rw [hrun, convertAscii] at hout
    split at hout
    case isTrue =>
      cases hout
      exact (map_asciiWrites _ _).symm
    case isFalse => cases hout
  case stopped =>
    intro hnone
    rw [hrun, convertAscii] at hnone
    split at hnone
    case isTrue => cases hnone
    case isFalse hroom =>
      rw [hlength]
      exact .inl (not_le.mp hroom)

theorem bounded_decoded (offset : ℕ) (hascii : ¬s.Ascii) {count : ℕ}
    (hcount : srcLen k.src s.units.length = some count) : Bounded k s offset
      (loopWrites k.src.next k.dest.append s.units.length 0 (s.units.take count)) := by
  have hcheck := mt (s.doIsStringAscii_iff offset).mp hascii
  have hlength : destLength k.src k.dest offset s.units =
      s.units.length * sizeCoefficient k.src k.dest := by
    rw [destLength, if_neg hcheck, reserved_eq]
  have hrun : convert k.src k.dest offset s.units = convertDecoded k.src k.dest s.units := by
    rw [convert_eq, if_neg hascii]
  have hbound : ¬(k.src.width = 2 ∧ castInt32 s.units.length = -2 ^ 31) := fun hbound => by
    rw [srcLen, if_pos hbound] at hcount
    cases hcount
  have htake : s.units.take count = counted s.units := by
    rw [srcLen, if_neg hbound] at hcount
    rw [← Option.some.inj hcount]
    rfl
  obtain ⟨cs, hparts, hwrites, hsome, hnone⟩ := exists_decoded s
  have hestimate := hparts.length_encodeAll_le k.fits.size k.fits.replace
  have hcounted : (counted s.units).length ≤ s.units.length := length_take_le' _ _
  have hmul := Nat.mul_le_mul_left (sizeCoefficient k.src k.dest) hcounted
  rw [Nat.mul_comm _ s.units.length] at hmul
  rw [htake, hwrites]
  constructor
  case inside =>
    intro w hw
    have := lt_of_mem_unitWrites w hw
    rw [hlength]
    omega
  case length_le =>
    rw [length_unitWrites]
    omega
  case written =>
    intro ok out hout
    rw [hrun] at hout
    by_cases hcounts :
        Counts k.src k.dest s.units.length (k.destForm.encodeAll (replaced cs)).length
    case pos =>
      rw [hsome hcounts] at hout
      cases hout
      exact (map_unitWrites _ _).symm
    case neg =>
      rw [hnone hcounts] at hout
      cases hout
  case stopped =>
    intro hstop
    rw [hrun] at hstop
    rw [hlength, length_unitWrites]
    by_contra hnot
    rw [not_or, not_or, not_lt, not_le] at hnot
    have hcounts := hsome ⟨hnot.1, hbound, hnot.2.2⟩
    rw [hcounts] at hstop
    cases hstop

/-- A conversion of any source writes inside the destination that it has reserved, no more units
than the estimate. -/
theorem convert_bounded (k : Conversion) (s : Source k.src) (offset : ℕ) :
    Bounded k s offset (convertWrites k.src k.dest offset s.units) := by
  have hascii := s.doIsStringAscii_iff offset
  rw [convertWrites]
  by_cases hnil : s.units.length = 0
  case pos =>
    have hunits := length_eq_zero_iff.mp hnil
    have hempty : s.Ascii := by
      rw [Source.Ascii, hunits]
      exact fun u hu => absurd hu not_mem_nil
    have hwrites : asciiWrites k.dest s.units = [] := by
      rw [hunits]
      rfl
    rw [if_pos hnil, ← hwrites]
    exact bounded_ascii s offset hempty
  case neg =>
    rw [if_neg hnil]
    by_cases hall : s.Ascii
    case pos =>
      rw [if_pos (hascii.mpr hall)]
      exact bounded_ascii s offset hall
    case neg =>
      rw [if_neg (mt hascii.mp hall)]
      split
      case h_1 hcount =>
        have hrun : convert k.src k.dest offset s.units = none := by
          rw [convert_eq, if_neg hall, convertDecoded, hcount]
          split <;> rfl
        refine ⟨fun w hw => absurd hw not_mem_nil, Nat.zero_le _, ?_, fun _ => .inr (.inl hcount)⟩
        intro ok out hout
        rw [hrun] at hout
        cases hout
      case h_2 count hcount => exact bounded_decoded s offset hall hcount

/-- A lone surrogate takes the three bytes that are reserved for it. -/
example : convertWrites srcUtf16 char8 0 [0xD800] = [(0, 0xEF), (1, 0xBF), (2, 0xBD)] := by
  decide +kernel

/-! The result. -/

/-- The conversion returns, and does not report success without the text of the whole source. -/
def Whole (k : Conversion) (s : Source k.src) : Prop :=
  ∀ offset, ∃ ok out, convert k.src k.dest offset s.units = some (ok, out) ∧
    (ok = true → ∃ cs, k.sourceForm.Parts s.units cs ∧ out = k.destForm.encodeAll (replaced cs))

/-- A source that Convert can count: it is ASCII, or an `int32_t` counts it and its text, or what
the `int32_t` counts of it is not well-formed. -/
inductive Countable (k : Conversion) (s : Source k.src) : Prop
  | ascii (h : s.Ascii) (room : s.units.length ≤ kMaxCapacity k.dest.width)
  | decoded (h : ¬s.Ascii)
      (room : s.units.length * sizeCoefficient k.src k.dest ≤ kMaxCapacity k.dest.width)
      (size : ∃ cs, k.sourceForm.Parts (counted s.units) cs ∧
        (k.destForm.encodeAll (replaced cs)).length < 2 ^ 31)
      (whole : s.units.length < 2 ^ 31 ∨ ¬k.sourceForm.WellFormed (counted s.units))

theorem whole_ascii_iff (hascii : s.Ascii) :
    Whole k s ↔ s.units.length ≤ kMaxCapacity k.dest.width := by
  have hrun : ∀ offset, convert k.src k.dest offset s.units =
      if s.units.length ≤ kMaxCapacity k.dest.width then some (true, s.units) else none := by
    intro offset
    rw [convert_eq, if_pos hascii, convertAscii_eq k.encodes hascii]
  constructor
  · intro hwhole
    by_contra hroom
    obtain ⟨ok, out, hout, -⟩ := hwhole 0
    rw [hrun, if_neg hroom] at hout
    cases hout
  · intro hroom offset
    obtain ⟨ds, hsource, hdest⟩ := exists_ascii k.decodes k.encodes hascii
    refine ⟨true, s.units, by rw [hrun, if_pos hroom], fun _ => ⟨ds.map some, ?_, ?_⟩⟩
    · rw [hsource]
      exact parts_encodeAll ds
    · rw [replaced_map_some]
      exact hdest

theorem size_iff {cs ds : List (Option Char)} (hcs : k.sourceForm.Parts (counted s.units) cs)
    (hds : k.sourceForm.Parts (counted s.units) ds)
    (h : (k.destForm.encodeAll (replaced ds)).length < 2 ^ 31) :
    (k.destForm.encodeAll (replaced cs)).length < 2 ^ 31 := by
  by_cases hone : sizeCoefficient k.src k.dest = 1
  case pos =>
    have hestimate := hcs.length_encodeAll_le k.fits.size k.fits.replace
    have hcounted := length_counted_lt s.units
    rw [hone, Nat.one_mul] at hestimate
    omega
  case neg =>
    have hsingle : ∀ us rest, k.sourceForm.IllFormed us rest → us.length = 1 := by
      cases k
      case utf16ToUtf8 => exact illFormed_utf16_single
      case wideToUtf8 => exact illFormed_utf32_single
      case wideToUtf16 => exact illFormed_utf32_single
      all_goals exact absurd rfl hone
    rwa [hcs.unique hsingle hds]

theorem whole_decoded_iff (hascii : ¬s.Ascii) :
    Whole k s ↔ s.units.length * sizeCoefficient k.src k.dest ≤ kMaxCapacity k.dest.width ∧
      (∃ cs, k.sourceForm.Parts (counted s.units) cs ∧
        (k.destForm.encodeAll (replaced cs)).length < 2 ^ 31) ∧
      (s.units.length < 2 ^ 31 ∨ ¬k.sourceForm.WellFormed (counted s.units)) := by
  have hrun : ∀ offset, convert k.src k.dest offset s.units =
      convertDecoded k.src k.dest s.units := by
    intro offset
    rw [convert_eq, if_neg hascii]
  obtain ⟨cs, hparts, -, hsome, hnone⟩ := exists_decoded s
  constructor
  case mp =>
    intro hwhole
    obtain ⟨ok, out, hout, htext⟩ := hwhole 0
    rw [hrun] at hout
    by_cases hcounts :
        Counts k.src k.dest s.units.length (k.destForm.encodeAll (replaced cs)).length
    case neg =>
      rw [hnone hcounts] at hout
      cases hout
    case pos =>
      rw [hsome hcounts] at hout
      cases hout
      refine ⟨hcounts.room, ⟨cs, hparts, hcounts.size⟩, ?_⟩
      by_contra hnot
      rw [not_or, not_not] at hnot
      obtain ⟨hlong, ds, hds⟩ := hnot
      -- what is behind the counted units has parts of its own
      obtain ⟨hall, hreplaced⟩ := hparts.eq_encodeAll_of_all hds
      obtain ⟨es, hes, hout⟩ := htext hall
      have hsplit : s.units = k.sourceForm.encodeAll ds ++
          s.units.drop (castInt32 s.units.length).toNat := by
        rw [← hds, counted, take_append_drop]
      obtain ⟨fs, rfl, hfs⟩ := hes.split hsplit
      have hcounted := length_counted_lt s.units
      have hne : fs ≠ [] := by
        rintro rfl
        have hnil : s.units.drop (castInt32 s.units.length).toNat = [] := by
          generalize s.units.drop (castInt32 s.units.length).toNat = rest at hfs
          cases hfs
          rfl
        rw [hnil, append_nil, ← hds] at hsplit
        rw [← hsplit] at hcounted
        exact hlong hcounted
      have hlt := length_encodeAll_lt (G := k.destForm) ds hne
      rw [← hout, hreplaced] at hlt
      exact Nat.lt_irrefl _ hlt
  case mpr =>
    rintro ⟨hroom, ⟨ds, hds, hsize⟩, hwhole⟩ offset
    have hbound : ¬(k.src.width = 2 ∧ castInt32 s.units.length = -2 ^ 31) := by
      rintro ⟨-, hcast⟩
      obtain hshort | hill := hwhole
      · have := castInt32_eq hshort
        have hnat : castInt32 s.units.length = s.units.length :=
          Int.bmod_eq_of_le (by omega) (by omega)
        omega
      · refine hill ⟨[], ?_⟩
        rw [counted, hcast]
        exact take_zero
    refine ⟨_, _, (hrun offset).trans (hsome ⟨hroom, hbound, size_iff s hparts hds hsize⟩), ?_⟩
    intro hok
    obtain hshort | hill := hwhole
    · rw [counted_eq hshort] at hparts
      exact ⟨cs, hparts, rfl⟩
    · exact absurd (hparts.wellFormed_iff.mpr hok) hill

/-- A conversion returns, and reports success for the whole source only, exactly where the source
is one that it can count. -/
theorem whole_iff (k : Conversion) (s : Source k.src) : Whole k s ↔ Countable k s := by
  by_cases hascii : s.Ascii
  case pos =>
    rw [whole_ascii_iff s hascii]
    constructor
    · exact fun hroom => .ascii hascii hroom
    · rintro (⟨-, hroom⟩ | ⟨hnot, -⟩)
      · exact hroom
      · exact absurd hascii hnot
  case neg =>
    rw [whole_decoded_iff s hascii]
    constructor
    · exact fun h => .decoded hascii h.1 h.2.1 h.2.2
    · rintro (⟨hall, -⟩ | ⟨-, hroom, hsize, hwhole⟩)
      · exact absurd hall hascii
      · exact ⟨hroom, hsize, hwhole⟩

/-- `n` letters e with an acute accent as a wide string. -/
def accents (n : ℕ) (hn : n * 4 < 2 ^ 63) : Source srcWide where
  units := List.replicate n 0xE9
  inRange u hu := by
    rw [List.eq_of_mem_replicate hu]
    decide
  addressable := by
    rw [List.length_replicate]
    exact hn

/-- 2^31 letters are converted to the empty string, with success. -/
theorem accents_lost :
    (∀ offset, wideToUtf8 offset (accents (2 ^ 31) (by decide)).units = some (true, [])) ∧
      ¬Whole .wideToUtf8 (accents (2 ^ 31) (by decide)) := by
  have hlength : (accents (2 ^ 31) (by decide)).units.length = 2 ^ 31 := length_replicate
  have hascii : ¬(accents (2 ^ 31) (by decide)).Ascii := fun h => by
    have hmem : 0xE9 ∈ (accents (2 ^ 31) (by decide)).units :=
      mem_replicate.mpr ⟨by decide, rfl⟩
    exact absurd (h _ hmem) (by decide)
  have hcounted : counted (accents (2 ^ 31) (by decide)).units = [] := by
    rw [counted, hlength]
    exact take_zero
  obtain ⟨cs, hparts, -, hsome, -⟩ := exists_decoded (k := .wideToUtf8)
    (accents (2 ^ 31) (by decide))
  constructor
  case left =>
    intro offset
    have hnil : cs = ([] : List Char).map some := hparts.eq_map hcounted
    subst hnil
    have hrun := hsome ⟨by rw [hlength]; decide, fun hbound => absurd hbound.1 (by decide),
      by decide⟩
    have hfirst := (convert_eq (k := .wideToUtf8) (accents (2 ^ 31) (by decide)) offset).trans
      (if_neg hascii)
    exact hfirst.trans hrun
  case right =>
    intro hwhole
    obtain ⟨-, -, hshort | hill⟩ := (whole_decoded_iff _ hascii).mp hwhole
    · rw [hlength] at hshort
      exact Nat.lt_irrefl _ hshort
    · exact hill ⟨[], hcounted⟩

/-! The fast path against the decoders. -/

theorem convertDecoded_ascii (hascii : s.Ascii) : convertDecoded k.src k.dest s.units =
      if s.units.length * sizeCoefficient k.src k.dest ≤ kMaxCapacity k.dest.width ∧
          ¬(k.src.width = 2 ∧ castInt32 s.units.length = -2 ^ 31) then
        some (true, counted s.units)
      else none := by
  obtain ⟨cs, hparts, -, hsome, hnone⟩ := exists_decoded s
  obtain ⟨ds, hsource, hdest⟩ := exists_ascii k.decodes k.encodes
    fun u hu => hascii u (mem_of_mem_take hu)
  obtain ⟨hall, hcs⟩ := hparts.eq_encodeAll_of_all hsource
  rw [hcs, ← hdest] at hsome hnone
  have hcounted := length_counted_lt s.units
  split
  case isTrue h =>
    rw [hsome ⟨h.1, h.2, hcounted⟩]
    exact congrArg (fun b => some (b, counted s.units)) hall
  case isFalse h => exact hnone fun hcounts => h ⟨hcounts.room, hcounts.bound⟩

/-- The batched check is that of every unit, and on what it accepts the fast path does what the
decoder would do. -/
structure FastAgrees (k : Conversion) (s : Source k.src) : Prop where
  check : ∀ offset, doIsStringAscii k.src.width k.src.signed offset s.units = true ↔ s.Ascii
  agrees : ∀ offset, doIsStringAscii k.src.width k.src.signed offset s.units = true →
    convertAscii k.dest s.units = convertDecoded k.src k.dest s.units

theorem ascii_agrees_iff (hascii : s.Ascii) :
    convertAscii k.dest s.units = convertDecoded k.src k.dest s.units ↔
      s.units.length < 2 ^ 31 ∨ kMaxCapacity k.dest.width < s.units.length := by
  rw [convertAscii_eq k.encodes hascii, convertDecoded_ascii s hascii]
  have hproduct := le_product k.src k.dest s.units.length
  by_cases hroom : s.units.length ≤ kMaxCapacity k.dest.width
  case neg =>
    rw [if_neg hroom, if_neg fun h => hroom (hproduct.trans h.1)]
    exact iff_of_true rfl (.inr (not_le.mp hroom))
  case pos =>
    rw [if_pos hroom]
    by_cases hshort : s.units.length < 2 ^ 31
    case pos =>
      have hle : s.units.length * sizeCoefficient k.src k.dest ≤ 2 ^ 31 * 4 :=
        Nat.mul_le_mul (Nat.le_of_lt hshort) (sizeCoefficient_le _ _)
      have hbound : ¬(k.src.width = 2 ∧ castInt32 s.units.length = -2 ^ 31) := by
        rintro ⟨-, hcast⟩
        have hnat : castInt32 s.units.length = s.units.length :=
          Int.bmod_eq_of_le (by omega) (by omega)
        omega
      rw [if_pos ⟨le_kMaxCapacity k.encodes.isWidth hle, hbound⟩, counted_eq hshort]
      exact iff_of_true rfl (.inl hshort)
    case neg =>
      refine iff_of_false (fun heq => ?_) fun h => ?_
      · split at heq
        case isTrue =>
          obtain ⟨-, hunits⟩ := Prod.mk.inj (Option.some.inj heq)
          have hcounted := length_counted_lt s.units
          rw [← hunits] at hcounted
          exact hshort hcounted
        case isFalse => cases heq
      · omega

/-- The check agrees for every string of every width, and the paths for every source that is not
ASCII, or has fewer than 2^31 units, or is too long for either of them. -/
theorem fast_agrees_iff {width : ℕ} (hwidth : IsWidth width) (signed : Bool) (offset : ℕ)
    {units : List ℕ} (hunits : ∀ u ∈ units, u < 2 ^ (8 * width)) (k : Conversion)
    (s : Source k.src) :
    (doIsStringAscii width signed offset units = true ↔ ∀ u ∈ units, u < 0x80) ∧ (FastAgrees k s ↔
        (s.Ascii → s.units.length < 2 ^ 31 ∨ kMaxCapacity k.dest.width < s.units.length)) := by
  refine ⟨doIsStringAscii_iff hwidth offset hunits, ?_⟩
  constructor
  · intro hagrees hascii
    exact (ascii_agrees_iff s hascii).mp (hagrees.agrees 0 ((s.doIsStringAscii_iff 0).mpr hascii))
  · intro hlength
    refine ⟨s.doIsStringAscii_iff, fun offset hcheck => ?_⟩
    have hascii := (s.doIsStringAscii_iff offset).mp hcheck
    exact (ascii_agrees_iff s hascii).mpr (hlength hascii)

def letters (n : ℕ) (hn : n * 1 < 2 ^ 63) : Source srcUtf8 where
  units := List.replicate n 0x61
  inRange u hu := by
    rw [List.eq_of_mem_replicate hu]
    decide
  addressable := by
    rw [List.length_replicate]
    exact hn

theorem letters_ascii (n : ℕ) (hn : n * 1 < 2 ^ 63) : (letters n hn).Ascii := fun u hu => by
  rw [eq_of_mem_replicate hu]
  decide

/-- Three letters, read a byte before a word begins. -/
theorem fast_agrees_iff_letters : doIsStringAscii 1 true 1 [0x61, 0x62, 0x63] = true ∧
      FastAgrees .utf8ToUtf16 (letters 3 (by decide)) :=
  have hagrees := @fast_agrees_iff 1 (.inl rfl) true 1 [0x61, 0x62, 0x63] (by decide) .utf8ToUtf16
    (letters 3 (by decide))
  ⟨hagrees.1.mpr (by decide), hagrees.2.mpr fun _ => .inl (by decide)⟩

/-- The fast path writes 2^31 letters, of which the decoder would write none. -/
theorem letters_disagree : convertAscii char16 (letters (2 ^ 31) (by decide)).units =
        some (true, (letters (2 ^ 31) (by decide)).units) ∧
      convertDecoded srcUtf8 char16 (letters (2 ^ 31) (by decide)).units = some (true, []) ∧
      ¬FastAgrees .utf8ToUtf16 (letters (2 ^ 31) (by decide)) := by
  have hascii := letters_ascii (2 ^ 31) (by decide)
  have hlength : (letters (2 ^ 31) (by decide)).units.length = 2 ^ 31 := length_replicate
  have hroom : (letters (2 ^ 31) (by decide)).units.length ≤ kMaxCapacity char16.width := by
    rw [hlength]
    decide
  have hcounted : counted (letters (2 ^ 31) (by decide)).units = [] := by
    rw [counted, hlength]
    exact take_zero
  refine ⟨(convertAscii_eq encodes_char16 hascii).trans (if_pos hroom), ?_, fun hagrees => ?_⟩
  · rw [← hcounted]
    refine (convertDecoded_ascii (k := .utf8ToUtf16) _ hascii).trans (if_pos ⟨?_, ?_⟩)
    · rw [hlength]
      decide
    · exact fun hbound => absurd hbound.1 (by decide)
  · have hcheck := ((letters (2 ^ 31) (by decide)).doIsStringAscii_iff (k := .utf8ToUtf16) 0).mpr hascii
    have hiff := (ascii_agrees_iff _ hascii).mp (hagrees.agrees 0 hcheck)
    rw [hlength] at hiff
    exact absurd hiff (by decide)

end Equilibrium.CodeConvert
