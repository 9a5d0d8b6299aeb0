import Equilibrium.Options.OptionFile

/-! What a whole options text does to each registered option. An entry acts on every option by
itself, so the registry after a text is each option after the entries of the text. -/

namespace Equilibrium.OptionFile

variable {V : Type*}

def entryLines (text : List Char) : List (List Char) :=
  ((text.splitOn '\n').map trim).filter fun line => line ≠ [] ∧ !isComment line

def entries (text : List Char) : List (List Char × Option (List Char)) :=
  (entryLines text).filterMap parseEntry

/-- The value that an entry gives an option which it names and which accepts it. -/
def given (o : OptionBase V) (entry : List Char × Option (List Char)) : Option V :=
  if isMatch o entry.1 then
    match entry.2 with
    | none => some o.default
    | some text => o.parseFromString text
  else none

/-- As `given`, for an entry that is no reset. -/
def assigned (o : OptionBase V) (entry : List Char × Option (List Char)) : Option V :=
  if isMatch o entry.1 then entry.2.bind o.parseFromString else none

/-- The values of the valid entries of an option in a text, in order. -/
def givenValues (text : List Char) (o : OptionBase V) : List V :=
  (entries text).filterMap (given o)

def assignedValues (text : List Char) (o : OptionBase V) : List V :=
  (entries text).filterMap (assigned o)

/-- One option is another one in a later state. -/
structure SameOption (o o' : OptionBase V) : Prop where
  name : o'.name = o.name
  env : o'.env = o.env
  parse : o'.parseFromString = o.parseFromString
  default : o'.default = o.default

/-- What `option_file.h` says of applying a text. -/
structure AppliedAsDocumented (text : List Char) (apply : OptionApply)
    (registry registry' : List (OptionBase V)) (result : OptionFileResult) : Prop where
  counted : result.applied + result.skipped + result.unknown + result.invalid =
    (entryLines text).length
  same : List.Forall₂ SameOption registry registry'
  last : List.Forall₂ (fun o o' => ¬(apply = .fillUnset ∧ o.overridden) →
    o'.value = (givenValues text o).getLast?.getD o.value) registry registry'
  held : List.Forall₂ (fun o o' => apply = .fillUnset ∧ o.overridden → o'.value = o.value)
    registry registry'

/-- The first text that an option accepts leaves it with the value of its last valid entry. -/
def FirstIsLast (text : List Char) (o : OptionBase V) : Prop :=
  ∀ v, (assignedValues text o).head? = some v → (givenValues text o).getLast? = some v

section Entry

variable (apply : OptionApply) (entry : List Char × Option (List Char)) (o : OptionBase V)

def afterEntry : OptionBase V := (visitOption apply entry.1 entry.2 o ⟨0, 0, 0⟩).1

theorem visitOption_fst (t : Tally) :
    (visitOption apply entry.1 entry.2 o t).1 = afterEntry apply entry o := by
  unfold afterEntry visitOption
  split
  · rfl
  · split
    · rfl
    · cases entry.2 with
      | none => rfl
      | some text =>
        dsimp only
        rcases o.setFromString text with ⟨o', ok⟩
        cases ok <;> rfl

theorem afterEntry_same : SameOption o (afterEntry apply entry o) := by
  have hrefl : SameOption o o := ⟨rfl, rfl, rfl, rfl⟩
  unfold afterEntry visitOption
  split
  · exact hrefl
  · split
    · exact hrefl
    · cases entry.2 with
      | none => exact ⟨rfl, rfl, rfl, rfl⟩
      | some text =>
        simp only [OptionBase.setFromString]
        cases o.parseFromString text with
        | none => exact hrefl
        | some v => exact ⟨rfl, rfl, rfl, rfl⟩

variable {apply entry o}

theorem afterEntry_held (h : apply = .fillUnset ∧ o.overridden) : afterEntry apply entry o = o := by
  unfold afterEntry visitOption
  cases hmatch : isMatch o entry.1 with
  | false => rfl
  | true => rw [if_neg (by simp), if_pos h]

theorem afterEntry_value (h : ¬(apply = .fillUnset ∧ o.overridden)) :
    (afterEntry apply entry o).value = (given o entry).getD o.value := by
  unfold afterEntry visitOption given
  cases hmatch : isMatch o entry.1 with
  | false => rfl
  | true =>
    rw [if_neg (by simp), if_neg h, if_pos rfl]
    cases entry.2 with
    | none => rfl
    | some text =>
      simp only [OptionBase.setFromString]
      cases o.parseFromString text <;> rfl

theorem afterEntry_overridden (h : o.overridden = false) :
    (afterEntry apply entry o).overridden = (assigned o entry).isSome := by
  unfold afterEntry visitOption assigned
  cases hmatch : isMatch o entry.1 with
  | false => simpa using h
  | true =>
    rw [if_neg (by simp), if_neg (by simp [h]), if_pos rfl]
    cases entry.2 with
    | none => rfl
    | some text =>
      simp only [OptionBase.setFromString, Option.bind_some]
      cases o.parseFromString text with
      | none => exact h
      | some v => rfl

theorem given_of_assigned {v : V} (h : assigned o entry = some v) : given o entry = some v := by
  unfold assigned at h
  unfold given
  cases hmatch : isMatch o entry.1 with
  | false => simp [hmatch] at h
  | true =>
    rw [hmatch, if_pos rfl] at h
    rw [if_pos rfl]
    obtain ⟨text, htext, hparse⟩ := Option.bind_eq_some_iff.mp h
    rw [htext]
    exact hparse

end Entry

namespace SameOption

variable {o o' o'' : OptionBase V}

theorem refl : SameOption o o := ⟨rfl, rfl, rfl, rfl⟩

section

variable (h : SameOption o o')
include h

theorem trans (h' : SameOption o' o'') : SameOption o o'' where
  name := h'.name.trans h.name
  env := h'.env.trans h.env
  parse := h'.parse.trans h.parse
  default := h'.default.trans h.default

theorem isMatch_eq : isMatch o' = isMatch o := by
  funext name
  rw [isMatch, isMatch, h.name, h.env]

theorem given_eq : given o' = given o := by
  funext entry
  rw [given, given, h.isMatch_eq, h.parse, h.default]

theorem assigned_eq : assigned o' = assigned o := by
  funext entry
  rw [assigned, assigned, h.isMatch_eq, h.parse]

end

end SameOption

end Equilibrium.OptionFile

/-! `ApplyOptionText` over a whole text: the entries in order on each option, the four counters,
and when the result is the one that `option_file.h` documents. -/

namespace Equilibrium.OptionFile

open List

variable {V : Type*}

section Visit

variable (apply : OptionApply) (name : List Char) (stable : Option (List Char))

theorem visitAll_fst (registry : List (OptionBase V)) (t : Tally) :
    (visitAll (visitOption apply name stable) registry t).1 =
      registry.map (afterEntry apply (name, stable)) := by
  induction registry generalizing t with
  | nil => rfl
  | cons o registry ih =>
    rw [visitAll, map_cons, ← visitOption_fst apply (name, stable) o t, ← ih]

end Visit

section Text

variable (apply : OptionApply)

def afterLine (line : List Char) (o : OptionBase V) : OptionBase V :=
  match parseEntry line with
  | none => o
  | some entry => afterEntry apply entry o

theorem applyEntry_fst (line : List Char) (s : List (OptionBase V) × OptionFileResult) :
    (applyEntry apply line s).1 = s.1.map (afterLine apply line) := by
  unfold applyEntry afterLine
  cases parseEntry line with
  | none => exact (map_id' s.1).symm
  | some entry => exact visitAll_fst apply entry.1 entry.2 s.1 _

def total (result : OptionFileResult) : ℕ :=
  result.applied + result.skipped + result.unknown + result.invalid

theorem total_report (tally : Tally) (result : OptionFileResult) :
    total (report tally result) = total result + 1 := by
  unfold report total
  split_ifs <;> dsimp only <;> omega

theorem applyEntry_total (line : List Char) (s : List (OptionBase V) × OptionFileResult) :
    total (applyEntry apply line s).2 = total s.2 + 1 := by
  unfold applyEntry
  cases parseEntry line with
  | none => unfold total; dsimp only; omega
  | some entry => exact total_report _ _

section

variable (lines : List (List Char))
include lines

section

variable (s : List (OptionBase V) × OptionFileResult)
include s

theorem foldl_applyLine :
    lines.foldl (applyLine apply) s =
      ((lines.map trim).filter fun line => line ≠ [] ∧ !isComment line).foldl
        (fun s line => applyEntry apply line s) s := by
  rw [foldl_filter, foldl_map]
  refine congrArg (fun f => foldl f s lines) ?_
  funext s line
  simp only [applyLine, decide_eq_true_eq]

theorem foldl_applyEntry_fst :
    (lines.foldl (fun s line => applyEntry apply line s) s).1 =
      s.1.map fun o => (lines.filterMap parseEntry).foldl (fun o e => afterEntry apply e o) o := by
  induction lines generalizing s with
  | nil => exact (map_id' s.1).symm
  | cons line lines ih =>
    rw [foldl_cons, ih, applyEntry_fst, map_map]
    refine map_congr_left fun o _ => ?_
    rw [Function.comp_apply, afterLine, filterMap_cons]
    cases parseEntry line <;> rfl

theorem foldl_applyEntry_total :
    total (lines.foldl (fun s line => applyEntry apply line s) s).2 = total s.2 + lines.length := by
  induction lines generalizing s with
  | nil => rfl
  | cons line lines ih =>
    rw [foldl_cons, ih, applyEntry_total, length_cons]
    omega

end

end

variable (text : List Char) (registry : List (OptionBase V))

def afterText (o : OptionBase V) : OptionBase V :=
  (entries text).foldl (fun o e => afterEntry apply e o) o

theorem applyOptionText_fst :
    (applyOptionText text apply registry).1 = registry.map (afterText apply text) := by
  rw [applyOptionText, foldl_applyLine]
  exact foldl_applyEntry_fst apply _ _

theorem applyOptionText_total :
    total (applyOptionText text apply registry).2 = (entryLines text).length := by
  rw [applyOptionText, foldl_applyLine, foldl_applyEntry_total]
  exact Nat.zero_add _

end Text

section Entries

variable {apply : OptionApply} {o : OptionBase V}

theorem foldl_same (es : List (List Char × Option (List Char))) (o : OptionBase V) :
    SameOption o (es.foldl (fun o e => afterEntry apply e o) o) := by
  induction es generalizing o with
  | nil => exact .refl
  | cons e es ih => exact (afterEntry_same apply e o).trans (ih _)

theorem foldl_held (h : apply = .fillUnset ∧ o.overridden)
    (es : List (List Char × Option (List Char))) :
    es.foldl (fun o e => afterEntry apply e o) o = o := by
  induction es with
  | nil => rfl
  | cons e es ih => rw [foldl_cons, afterEntry_held h, ih]

theorem getLast?_filterMap_cons {α β : Type*} (f : α → Option β) (a : α) (as : List α) (b : β) :
    ((a :: as).filterMap f).getLast?.getD b = (as.filterMap f).getLast?.getD ((f a).getD b) := by
  rw [filterMap_cons]
  cases f a with
  | none => rfl
  | some v =>
    rw [getLast?_cons]
    rfl

theorem foldl_override (es : List (List Char × Option (List Char))) (o : OptionBase V) :
    (es.foldl (fun o e => afterEntry .override e o) o).value =
      (es.filterMap (given o)).getLast?.getD o.value := by
  induction es generalizing o with
  | nil => rfl
  | cons e es ih =>
    rw [foldl_cons, ih, (afterEntry_same .override e o).given_eq, getLast?_filterMap_cons,
      afterEntry_value (by simp)]

theorem foldl_fillUnset (es : List (List Char × Option (List Char))) (o : OptionBase V)
    (h : o.overridden = false) : (es.foldl (fun o e => afterEntry .fillUnset e o) o).value =
      (es.filterMap (assigned o)).head?.getD ((es.filterMap (given o)).getLast?.getD o.value) := by
  induction es generalizing o with
  | nil => rfl
  | cons e es ih =>
    have hfree : ¬(OptionApply.fillUnset = .fillUnset ∧ o.overridden) := by simp [h]
    have hvalue : (afterEntry .fillUnset e o).value = (given o e).getD o.value :=
      afterEntry_value hfree
    have hmark : (afterEntry .fillUnset e o).overridden = (assigned o e).isSome :=
      afterEntry_overridden h
    rw [foldl_cons, getLast?_filterMap_cons, ← hvalue, filterMap_cons]
    cases hassigned : assigned o e with
    | none =>
      rw [hassigned] at hmark
      rw [ih _ hmark, (afterEntry_same _ e o).given_eq, (afterEntry_same _ e o).assigned_eq]
    | some v =>
      rw [hassigned] at hmark
      rw [foldl_held ⟨rfl, hmark⟩, hvalue, given_of_assigned hassigned]
      rfl

theorem givenValues_ne_nil {text : List Char} {v : V}
    (h : (assignedValues text o).head? = some v) : givenValues text o ≠ [] := by
  have hmem : v ∈ assignedValues text o := mem_of_mem_head? h
  obtain ⟨e, he, hv⟩ := mem_filterMap.mp hmem
  exact ne_nil_of_mem (mem_filterMap.mpr ⟨e, he, given_of_assigned hv⟩)

theorem afterText_fillUnset (text : List Char) (h : o.overridden = false) :
    (afterText .fillUnset text o).value = (givenValues text o).getLast?.getD o.value ↔
      FirstIsLast text o := by
  have hvalue := foldl_fillUnset (entries text) o h
  unfold afterText FirstIsLast
  rw [hvalue]
  change (assignedValues text o).head?.getD ((givenValues text o).getLast?.getD o.value) = _ ↔ _
  cases hfirst : (assignedValues text o).head? with
  | none => simp
  | some v =>
    have hlast := getLast?_eq_some_getLast (givenValues_ne_nil hfirst)
    rw [hlast]
    simp [eq_comm]

end Entries

/-- A text is applied as documented exactly if the mode is to override, or every option that was
not set before has its first accepted assignment agree with its last valid entry. -/
theorem applyOptionText_documented (text : List Char) (apply : OptionApply)
    (registry : List (OptionBase V)) :
    AppliedAsDocumented text apply registry (applyOptionText text apply registry).1
        (applyOptionText text apply registry).2 ↔
      (apply = .fillUnset → ∀ o ∈ registry, o.overridden = false → FirstIsLast text o) := by
  constructor
  · intro h hfill o ho hfree
    have hlast := h.last
    subst hfill
    rw [applyOptionText_fst, forall₂_map_right_iff, forall₂_same] at hlast
    exact (afterText_fillUnset text hfree).mp (hlast o ho (by simp [hfree]))
  · intro h
    rw [applyOptionText_fst]
    refine ⟨applyOptionText_total apply text registry, ?_, ?_, ?_⟩
    · rw [forall₂_map_right_iff, forall₂_same]
      exact fun o _ => foldl_same (entries text) o
    · rw [forall₂_map_right_iff, forall₂_same]
      intro o ho hfree
      cases apply with
      | override => exact foldl_override (entries text) o
      | fillUnset =>
        have hunset : o.overridden = false := by simpa using hfree
        exact (afterText_fillUnset text hunset).mpr (h rfl o ho hunset)
    · rw [forall₂_map_right_iff, forall₂_same]
      intro o _ hheld
      rw [afterText, foldl_held hheld]

/-- Two assignments of one name in fill-unset mode: the first one stays. -/
theorem applyOptionText_keeps_first :
    ¬AppliedAsDocumented "+test.count=1\n+test.count=2".toList .fillUnset
      [OptionBase.construct "test.count".toList 7 none parseOptionInt]
      (applyOptionText "+test.count=1\n+test.count=2".toList .fillUnset
        [OptionBase.construct "test.count".toList 7 none parseOptionInt]).1
      (applyOptionText "+test.count=1\n+test.count=2".toList .fillUnset
        [OptionBase.construct "test.count".toList 7 none parseOptionInt]).2 := by
  intro h
  have hlast := h.last
  rw [applyOptionText_fst, forall₂_map_right_iff, forall₂_same] at hlast
  have hsame := (afterText_fillUnset _ rfl).mp (hlast _ (mem_singleton_self _) (by decide))
  cases hsame 1 (by decide)

end Equilibrium.OptionFile
