import Mathlib.Data.List.Basic

/-! Encoding forms: characters as sequences of code units, of which none starts another.
A text of code units splits into the characters that it encodes and ill-formed parts. -/

namespace Equilibrium.Library

open List

structure CodeForm (α : Type) where
  encode : Char → List α
  encode_ne_nil : ∀ c, encode c ≠ []
  /-- A character is known from the units that a text starts with. -/
  starts : ∀ c d xs ys, encode c ++ xs = encode d ++ ys → c = d

namespace CodeForm

variable {α β : Type} {F : CodeForm α} {s rest units : List α}

def encodeAll (F : CodeForm α) (cs : List Char) : List α := cs.flatMap F.encode

def WellFormed (F : CodeForm α) (s : List α) : Prop := ∃ cs, s = F.encodeAll cs

/-- Units in front of `rest` where no character starts: one unit, or more of them that a
character starts with. -/
structure IllFormed (F : CodeForm α) (units rest : List α) : Prop where
  ne_nil : units ≠ []
  no_char : ∀ c, ¬ F.encode c <+: units ++ rest
  start : units.length = 1 ∨ ∃ c, units <+: F.encode c

/-- The characters of a text, with `none` for an ill-formed part. -/
inductive Parts (F : CodeForm α) : List α → List (Option Char) → Prop
  | nil : Parts F [] []
  | char (c : Char) {rest : List α} {cs : List (Option Char)} (h : Parts F rest cs) :
    Parts F (F.encode c ++ rest) (some c :: cs)
  | illFormed {units rest : List α} {cs : List (Option Char)} (hill : F.IllFormed units rest)
    (h : Parts F rest cs) : Parts F (units ++ rest) (none :: cs)

/-- The characters with the replacement character for every ill-formed part. -/
def replaced (cs : List (Option Char)) : List Char := cs.map (·.getD '\uFFFD')

theorem encodeAll_cons (c : Char) (cs : List Char) :
    F.encodeAll (c :: cs) = F.encode c ++ F.encodeAll cs := rfl

theorem length_le_encodeAll (cs : List Char) : cs.length ≤ (F.encodeAll cs).length := by
  induction cs with
  | nil => exact Nat.le_refl 0
  | cons c cs ih =>
    have hpos := length_pos_iff.mpr (F.encode_ne_nil c)
    rw [encodeAll_cons, length_append, length_cons]
    omega

variable {cs : List (Option Char)} {ds : List Char}

theorem Parts.eq_map (h : F.Parts s cs) (hs : s = F.encodeAll ds) : cs = ds.map some := by
  induction h generalizing ds with
  | nil =>
    cases ds with
    | nil => rfl
    | cons d ds =>
      have hnil := (append_eq_nil_iff.mp hs.symm).1
      exact absurd hnil (F.encode_ne_nil d)
  | char c h ih =>
    cases ds with
    | nil => exact absurd (append_eq_nil_iff.mp hs).1 (F.encode_ne_nil c)
    | cons d ds =>
      obtain rfl := F.starts _ _ _ _ hs
      rw [map_cons, ih (append_cancel_left hs)]
  | illFormed hill h ih =>
    cases ds with
    | nil => exact absurd (append_eq_nil_iff.mp hs).1 hill.ne_nil
    | cons d ds => exact absurd ⟨F.encodeAll ds, hs.symm⟩ (hill.no_char d)

theorem parts_encodeAll (cs : List Char) : F.Parts (F.encodeAll cs) (cs.map some) := by
  induction cs with
  | nil => exact .nil
  | cons c cs ih => exact .char c ih

theorem Parts.wellFormed_iff (h : F.Parts s cs) : F.WellFormed s ↔ cs.all (·.isSome) = true := by
  constructor
  · rintro ⟨ds, hs⟩
    rw [h.eq_map hs, all_map]
    exact all_eq_true.mpr fun _ _ => rfl
  · intro hall
    induction h with
    | nil => exact ⟨[], rfl⟩
    | char c h ih =>
      obtain ⟨ds, hds⟩ := ih hall
      exact ⟨c :: ds, by rw [hds, encodeAll_cons]⟩
    | illFormed hill h ih => cases hall

theorem replaced_map_some (cs : List Char) : replaced (cs.map some) = cs := by
  rw [replaced, map_map]
  exact map_id cs

theorem Parts.eq_encodeAll {cs : List (Option Char)} (h : F.Parts s cs)
    (hall : cs.all (·.isSome) = true) : s = F.encodeAll (replaced cs) := by
  obtain ⟨ds, hs⟩ := h.wellFormed_iff.mpr hall
  rw [h.eq_map hs, replaced_map_some]
  exact hs

theorem encodeAll_replaced_cons (c : Option Char) (cs : List (Option Char)) :
    F.encodeAll (replaced (c :: cs)) = F.encode (c.getD '\uFFFD') ++ F.encodeAll (replaced cs) :=
  rfl

theorem Parts.length_encodeAll_le {G : CodeForm β} {k : ℕ} (h : F.Parts s cs)
    (hsize : ∀ c, (G.encode c).length ≤ k * (F.encode c).length)
    (hreplace : (G.encode '\uFFFD').length ≤ k) :
    (G.encodeAll (replaced cs)).length ≤ k * s.length := by
  induction h with
  | nil => exact Nat.zero_le _
  | char c h ih =>
    rw [encodeAll_replaced_cons, length_append, length_append, Nat.mul_add]
    exact Nat.add_le_add (hsize c) ih
  | @illFormed units rest cs hill h ih =>
    have hpos := length_pos_iff.mpr hill.ne_nil
    rw [encodeAll_replaced_cons, length_append, length_append, Nat.mul_add]
    exact Nat.add_le_add (Nat.le_trans hreplace (Nat.le_mul_of_pos_right k hpos)) ih

theorem Parts.length_le {G : CodeForm β} (h : F.Parts s cs)
    (hsize : ∀ c, (F.encode c).length ≤ (G.encode c).length)
    (hreplace : ∀ c, (F.encode c).length ≤ (G.encode '\uFFFD').length) :
    s.length ≤ (G.encodeAll (replaced cs)).length := by
  induction h with
  | nil => exact Nat.zero_le _
  | char c h ih =>
    rw [encodeAll_replaced_cons, length_append, length_append]
    exact Nat.add_le_add (hsize c) ih
  | @illFormed units rest cs hill h ih =>
    have hunits : units.length ≤ (G.encode '\uFFFD').length := by
      obtain hone | ⟨c, hc⟩ := hill.start
      · have hpos := length_pos_iff.mpr (G.encode_ne_nil '\uFFFD')
        omega
      · exact Nat.le_trans hc.length_le (hreplace c)
    rw [encodeAll_replaced_cons, length_append, length_append]
    exact Nat.add_le_add hunits ih

theorem Parts.eq_encodeAll_of_all {cs : List (Option Char)} (h : F.Parts s cs) {ds : List Char}
    (hs : s = F.encodeAll ds) : cs.all (·.isSome) = true ∧ replaced cs = ds := by
  rw [h.eq_map hs, replaced_map_some, all_map]
  exact ⟨all_eq_true.mpr fun _ _ => rfl, rfl⟩

/-! Well-formed texts that start or end others. -/

theorem encodeAll_append (cs ds : List Char) :
    F.encodeAll (cs ++ ds) = F.encodeAll cs ++ F.encodeAll ds := flatMap_append

theorem encodeAll_eq_append {cs : List Char} (h : F.encodeAll cs = F.encodeAll ds ++ s) :
    ∃ es, cs = ds ++ es ∧ s = F.encodeAll es := by
  induction ds generalizing cs with
  | nil => exact ⟨cs, rfl, h.symm⟩
  | cons d ds ih =>
    rw [encodeAll_cons, append_assoc] at h
    cases cs with
    | nil => exact absurd (append_eq_nil_iff.mp h.symm).1 (F.encode_ne_nil d)
    | cons c cs =>
      obtain rfl := F.starts _ _ _ _ h
      obtain ⟨es, rfl, hs⟩ := ih (append_cancel_left h)
      exact ⟨es, rfl, hs⟩

theorem wellFormed_encodeAll_append (ds : List Char) :
    F.WellFormed (F.encodeAll ds ++ s) ↔ F.WellFormed s := by
  constructor
  · rintro ⟨cs, hcs⟩
    obtain ⟨es, -, hs⟩ := encodeAll_eq_append hcs.symm
    exact ⟨es, hs⟩
  · rintro ⟨es, rfl⟩
    exact ⟨ds ++ es, (encodeAll_append ds es).symm⟩

theorem wellFormed_take_iff (cs : List Char) (n : ℕ) : F.WellFormed ((F.encodeAll cs).take n) ↔
      (F.encodeAll cs).length ≤ n ∨ ∃ k, (F.encodeAll (cs.take k)).length = n := by
  constructor
  · rintro ⟨ds, hds⟩
    by_cases hn : (F.encodeAll cs).length ≤ n
    case pos => exact .inl hn
    case neg =>
      have hsplit : F.encodeAll cs = F.encodeAll ds ++ (F.encodeAll cs).drop n := by
        rw [← hds, take_append_drop]
      obtain ⟨es, rfl, -⟩ := encodeAll_eq_append hsplit
      refine .inr ⟨ds.length, ?_⟩
      rw [take_left, ← hds, length_take]
      omega
  · rintro (hn | ⟨k, hk⟩)
    · rw [take_of_length_le hn]
      exact ⟨cs, rfl⟩
    · have hsplit : F.encodeAll cs = F.encodeAll (cs.take k) ++ F.encodeAll (cs.drop k) := by
        rw [← encodeAll_append, take_append_drop]
      rw [hsplit, ← hk, take_left]
      exact ⟨cs.take k, rfl⟩

/-- A unit that is a character by itself, and occurs in no other one. -/
structure Alone (F : CodeForm α) (c : Char) (u : α) : Prop where
  encode_eq : F.encode c = [u]
  unique : ∀ d, u ∈ F.encode d → d = c

theorem Alone.encodeAll_replicate {c : Char} {u : α} (h : F.Alone c u) (n : ℕ) :
    F.encodeAll (replicate n c) = replicate n u := by
  induction n with
  | zero => rfl
  | succ n ih => rw [replicate_succ, encodeAll_cons, ih, h.encode_eq, replicate_succ]; rfl

theorem Alone.wellFormed_concat_iff {c : Char} {u : α} (h : F.Alone c u) :
    F.WellFormed (s ++ [u]) ↔ F.WellFormed s := by
  constructor
  · rintro ⟨ds, hds⟩
    obtain rfl | ⟨ds, d, rfl⟩ := eq_nil_or_concat ds
    case inl => exact absurd (append_eq_nil_iff.mp hds).2 (cons_ne_nil u [])
    case inr =>
      -- the last unit belongs to the last character
      have hlast : F.encodeAll [d] = F.encode d := append_nil _
      rw [concat_eq_append, encodeAll_append, hlast] at hds
      have hmem : u ∈ F.encode d := by
        have hne := F.encode_ne_nil d
        have hget := congrArg getLast? hds
        rw [getLast?_append, getLast?_append, getLast?_eq_some_getLast hne] at hget
        obtain rfl : u = (F.encode d).getLast hne := Option.some.inj hget
        exact getLast_mem hne
      obtain rfl := h.unique d hmem
      rw [h.encode_eq] at hds
      exact ⟨ds, append_cancel_right hds⟩
  · rintro ⟨ds, rfl⟩
    have hlast : F.encodeAll [c] = [u] := (append_nil _).trans h.encode_eq
    exact ⟨ds ++ [c], by rw [encodeAll_append, hlast]⟩

theorem Alone.wellFormed_fill_iff {c : Char} {u : α} (h : F.Alone c u) (m n : ℕ) :
    F.WellFormed (replicate m u ++ s ++ replicate n u) ↔ F.WellFormed s := by
  induction n with
  | zero =>
    rw [replicate_zero, append_nil, ← h.encodeAll_replicate m]
    exact wellFormed_encodeAll_append _
  | succ n ih =>
    rw [replicate_succ', ← append_assoc, h.wellFormed_concat_iff]
    exact ih

theorem Parts.split {cs : List (Option Char)} {ds : List Char} (h : F.Parts s cs)
    (hs : s = F.encodeAll ds ++ rest) : ∃ es, cs = ds.map some ++ es ∧ F.Parts rest es := by
  induction ds generalizing s cs with
  | nil =>
    have hs : s = rest := hs
    exact ⟨cs, rfl, hs ▸ h⟩
  | cons d ds ih =>
    rw [encodeAll_cons, append_assoc] at hs
    cases h with
    | nil => exact absurd (append_eq_nil_iff.mp hs.symm).1 (F.encode_ne_nil d)
    | char c h =>
      obtain rfl := F.starts _ _ _ _ hs
      obtain ⟨es, rfl, hes⟩ := ih h (append_cancel_left hs)
      exact ⟨es, rfl, hes⟩
    | illFormed hill h => exact absurd ⟨_, hs.symm⟩ (hill.no_char d)

theorem Parts.unique {ds : List (Option Char)}
    (hone : ∀ units rest, F.IllFormed units rest → units.length = 1) (h : F.Parts s cs)
    (h' : F.Parts s ds) : cs = ds := by
  induction h generalizing ds with
  | nil =>
    generalize hs : ([] : List α) = s at h'
    cases h' with
    | nil => rfl
    | char d h' => exact absurd (append_eq_nil_iff.mp hs.symm).1 (F.encode_ne_nil d)
    | illFormed hill h' => exact absurd (append_eq_nil_iff.mp hs.symm).1 hill.ne_nil
  | @char c rest cs h ih =>
    generalize hs : F.encode c ++ rest = s at h'
    cases h' with
    | nil => exact absurd (append_eq_nil_iff.mp hs).1 (F.encode_ne_nil c)
    | char d h' =>
      obtain rfl := F.starts _ _ _ _ hs
      obtain rfl := append_cancel_left hs
      rw [ih h']
    | illFormed hill h' => exact absurd ⟨rest, hs⟩ (hill.no_char c)
  | @illFormed units rest cs hill h ih =>
    generalize hs : units ++ rest = s at h'
    cases h' with
    | nil => exact absurd (append_eq_nil_iff.mp hs).1 hill.ne_nil
    | char d h' => exact absurd ⟨_, hs.symm⟩ (hill.no_char d)
    | illFormed hill' h' =>
      have hlength := (hone _ _ hill).trans (hone _ _ hill').symm
      obtain ⟨-, rfl⟩ := append_inj hs hlength
      rw [ih h']

theorem length_encodeAll_lt {G : CodeForm β} (ds : List Char) {es : List (Option Char)}
    (hne : es ≠ []) :
    (G.encodeAll ds).length < (G.encodeAll (replaced (ds.map some ++ es))).length := by
  have happend : replaced (ds.map some ++ es) = ds ++ replaced es := by
    rw [replaced, map_append]
    exact congrArg (· ++ replaced es) (replaced_map_some ds)
  have hpos : 0 < (replaced es).length := by
    rw [replaced, length_map]
    exact length_pos_iff.mpr hne
  have hle := length_le_encodeAll (F := G) (replaced es)
  rw [happend, encodeAll_append, length_append]
  omega

/-! Parts with their places. -/

/-- The parts of a text that starts at a place, each with its own. -/
inductive Pieces (F : CodeForm α) : ℕ → List α → List (ℕ × Option Char) → Prop
  | nil (i : ℕ) : Pieces F i [] []
  | char (i : ℕ) (c : Char) {rest : List α} {ps : List (ℕ × Option Char)}
      (h : Pieces F (i + (F.encode c).length) rest ps) :
    Pieces F i (F.encode c ++ rest) ((i, some c) :: ps)
  | illFormed (i : ℕ) {units rest : List α} {ps : List (ℕ × Option Char)}
      (hill : F.IllFormed units rest) (h : Pieces F (i + units.length) rest ps) :
    Pieces F i (units ++ rest) ((i, none) :: ps)

variable {i : ℕ} {ps : List (ℕ × Option Char)}

theorem Pieces.first (h : F.Pieces i s ps) : (ps[0]?).elim (i + s.length) (·.1) = i := by
  cases h <;> rfl

theorem Pieces.bounds (h : F.Pieces i s ps) : ∀ p ∈ ps, i ≤ p.1 ∧ p.1 < i + s.length := by
  induction h with
  | nil i => exact fun p hp => absurd hp not_mem_nil
  | @char i c rest ps h ih =>
    have hpos := length_pos_iff.mpr (F.encode_ne_nil c)
    intro p hp
    rw [length_append]
    obtain rfl | hp := mem_cons.mp hp
    · omega
    · have := ih p hp
      omega
  | @illFormed i units rest ps hill h ih =>
    have hpos := length_pos_iff.mpr hill.ne_nil
    intro p hp
    rw [length_append]
    obtain rfl | hp := mem_cons.mp hp
    · omega
    · have := ih p hp
      omega

theorem Pieces.increasing (h : F.Pieces i s ps) : (ps.map (·.1)).Pairwise (· < ·) := by
  induction h with
  | nil i => exact List.Pairwise.nil
  | @char i c rest ps h ih =>
    have hpos := length_pos_iff.mpr (F.encode_ne_nil c)
    refine List.Pairwise.cons (fun j hj => ?_) ih
    obtain ⟨p, hp, rfl⟩ := mem_map.mp hj
    have hle := (h.bounds p hp).1
    change i < p.1
    omega
  | @illFormed i units rest ps hill h ih =>
    have hpos := length_pos_iff.mpr hill.ne_nil
    refine List.Pairwise.cons (fun j hj => ?_) ih
    obtain ⟨p, hp, rfl⟩ := mem_map.mp hj
    have hle := (h.bounds p hp).1
    change i < p.1
    omega

end CodeForm

end Equilibrium.Library
