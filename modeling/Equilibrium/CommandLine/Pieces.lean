import Mathlib.Order.Bounds.Basic
import Equilibrium.CommandLine.Switches
import Equilibrium.Library.Runs

/-! The pieces of a command line: how `InitializeBuffer` of `base/command_line_posix.cc` cuts a
text into them, and where `FindPositionalArgumentsIndex` of `base/command_line.cc` sees the last
switch. -/

namespace Equilibrium.CommandLine

open Library.Runs List

/-- `InitializeBuffer` from a character on, with the argument begun before it. -/
def initializeFrom (currentArg : List Char) (pieces : List (List Char)) :
    List Char → List (List Char)
  | [] => pieces
  | c :: rest =>
    let (pieces, currentArg) :=
      if c = ' ' then (pieces ++ [currentArg], [])
      else if c = '\t' ∨ c = '\n' ∨ c = '\r' then (pieces, currentArg)
      else (pieces, currentArg ++ [c])
    let pieces := if rest = [] ∧ currentArg ≠ [] then pieces ++ [currentArg] else pieces
    initializeFrom currentArg pieces rest

def initializeBuffer (pieces : List (List Char)) (commandLine : List Char) : List (List Char) :=
  initializeFrom [] pieces commandLine

section Splitting

variable {text : List Char} {currentArg : List Char} {pieces : List (List Char)}

def isSeparator (c : Char) : Bool := c = ' ' || c = '\t' || c = '\n' || c = '\r'

def parts (text : List Char) : List (List Char) := text.splitOnP (· = ' ')

/-- The pieces that the parts leave behind an argument that is begun. -/
def packed (currentArg : List Char) : List (List Char) → List (List Char)
  | [] => []
  | [last] =>
    let arg := currentArg ++ last.filter (!isSeparator ·)
    if arg = [] then [] else [arg]
  | part :: rest => (currentArg ++ part.filter (!isSeparator ·)) :: packed [] rest

theorem packed_cons {part : List Char} {rest : List (List Char)} (h : rest ≠ []) :
    packed currentArg (part :: rest) =
      (currentArg ++ part.filter (!isSeparator ·)) :: packed [] rest := by
  obtain ⟨next, rest, rfl⟩ := exists_cons_of_ne_nil h
  rfl

theorem packed_modifyHead (c : Char) (segments : List (List Char)) :
    packed currentArg (segments.modifyHead (c :: ·)) =
      packed (currentArg ++ [c].filter (!isSeparator ·)) segments := by
  have hpart (part : List Char) : currentArg ++ (c :: part).filter (!isSeparator ·) =
      currentArg ++ [c].filter (!isSeparator ·) ++ part.filter (!isSeparator ·) := by
    rw [append_assoc, ← filter_append]
    rfl
  match segments with
  | [] => rfl
  | [part] =>
    rw [modifyHead_cons, packed, hpart]
    rfl
  | part :: next :: rest =>
    rw [modifyHead_cons, packed_cons (cons_ne_nil _ _), hpart]
    rfl

theorem parts_ne_nil (text : List Char) : parts text ≠ [] := splitOnP_ne_nil _ text

theorem parts_cons (c : Char) (text : List Char) : parts (c :: text) =
    if c = ' ' then [] :: parts text else (parts text).modifyHead (c :: ·) := by
  rw [parts, splitOnP_cons_eq_if_modifyHead]
  simp only [decide_eq_true_eq]
  rfl

theorem initializeFrom_blank (rest : List Char) :
    initializeFrom currentArg pieces (' ' :: rest) =
      initializeFrom [] (pieces ++ [currentArg]) rest := by
  rw [initializeFrom]
  simp

theorem initializeFrom_char {c : Char} (hc : c ≠ ' ') (rest : List Char) :
    initializeFrom currentArg pieces (c :: rest) =
      let arg := currentArg ++ [c].filter (!isSeparator ·)
      initializeFrom arg (if rest = [] ∧ arg ≠ [] then pieces ++ [arg] else pieces) rest := by
  rw [initializeFrom, if_neg hc]
  by_cases hseparator : c = '\t' ∨ c = '\n' ∨ c = '\r'
  · have hfilter : [c].filter (!isSeparator ·) = [] := by
      obtain rfl | rfl | rfl := hseparator <;> rfl
    rw [if_pos hseparator, hfilter, append_nil]
  · have hfilter : [c].filter (!isSeparator ·) = [c] := by
      simp_all [isSeparator]
    rw [if_neg hseparator, hfilter]

theorem initializeFrom_eq (htext : text ≠ []) : initializeFrom currentArg pieces text =
    pieces ++ packed currentArg (parts text) := by
  induction text generalizing currentArg pieces with
  | nil => exact absurd rfl htext
  | cons c rest ih =>
    rw [parts_cons]
    by_cases hc : c = ' '
    · subst hc
      rw [initializeFrom_blank, if_pos rfl, packed_cons (parts_ne_nil rest)]
      by_cases hrest : rest = []
      · subst hrest
        simp [initializeFrom, parts, packed]
      · rw [ih hrest]
        simp
    · rw [initializeFrom_char hc, if_neg hc, packed_modifyHead]
      dsimp only
      by_cases hrest : rest = []
      · subst hrest
        have hparts : parts [] = [[]] := rfl
        rw [hparts, packed, initializeFrom, filter_nil, append_nil]
        by_cases harg : currentArg ++ [c].filter (!isSeparator ·) = [] <;> simp [harg]
      · rw [if_neg fun h => hrest h.1, ih hrest]

theorem initializeBuffer_eq (text : List Char) :
    initializeBuffer [] text = packed [] (parts text) := by
  by_cases htext : text = []
  · subst htext
    rfl
  · exact initializeFrom_eq htext

theorem packed_concat (init : List (List Char)) (last : List Char) :
    packed [] (init ++ [last]) = init.map (·.filter (!isSeparator ·)) ++
      if last.filter (!isSeparator ·) = [] then [] else [last.filter (!isSeparator ·)] := by
  induction init with
  | nil => rfl
  | cons part init ih =>
    rw [cons_append, packed_cons (by simp), ih]
    rfl

/-- The pieces are the runs of the text exactly where every part has one run, and the part behind
the last blank has no more. -/
theorem initializeBuffer_eq_runs_iff (text : List Char) :
    initializeBuffer [] text = runs isSeparator text ↔
      (∀ part ∈ (parts text).dropLast, (runs isSeparator part).length = 1) ∧
        ∀ part ∈ (parts text).getLast?, (runs isSeparator part).length ≤ 1 := by
  have hruns : runs isSeparator text = (parts text).flatMap (runs isSeparator) :=
    runs_eq_flatMap (fun c hc => by simp_all [isSeparator]) text
  obtain ⟨init, last, hparts⟩ :=
    (eq_nil_or_concat' (parts text)).resolve_left (parts_ne_nil text)
  have hflatten : init.map (·.filter (!isSeparator ·)) =
      (init.map (runs isSeparator)).map flatten := by
    rw [map_map]
    exact map_congr_left fun part _ => (flatten_runs part).symm
  have hjoined := joined_eq_iff (init.map (runs isSeparator)) (runs isSeparator last)
    (forall_mem_map.mpr fun part _ w hw => ne_nil_of_mem_runs hw)
    fun w hw => ne_nil_of_mem_runs hw
  rw [initializeBuffer_eq, hruns, hparts, packed_concat, hflatten, ← flatten_runs last,
    flatMap_append, flatMap_singleton, flatMap_def, hjoined, forall_mem_map,
    dropLast_concat, getLast?_concat]
  simp

/-- A tab does not end a piece. -/
theorem not_initializeBuffer_eq_runs :
    ¬∀ text : List Char, initializeBuffer [] text = runs isSeparator text := fun h =>
  absurd (h ['a', '\t', 'b']) (by decide)

/-- A second blank leaves an empty piece. -/
example : initializeBuffer [] ['a', ' ', ' ', 'b'] = [['a'], [], ['b']] := by decide

theorem length_initializeFrom_le (currentArg : List Char) (pieces : List (List Char))
    (text : List Char) :
    (initializeFrom currentArg pieces text).length ≤ pieces.length + text.length := by
  induction text generalizing currentArg pieces with
  | nil => exact Nat.le_refl _
  | cons c rest ih =>
    by_cases hc : c = ' '
    · subst hc
      rw [initializeFrom_blank]
      have hrest := ih [] (pieces ++ [currentArg])
      rw [length_append] at hrest
      simp only [length_cons, length_nil] at hrest ⊢
      omega
    · rw [initializeFrom_char hc]
      dsimp only
      by_cases hpush : rest = [] ∧ currentArg ++ [c].filter (!isSeparator ·) ≠ []
      · rw [if_pos hpush, hpush.1]
        simp [initializeFrom]
      · rw [if_neg hpush, length_cons]
        have hrest := ih (currentArg ++ [c].filter (!isSeparator ·)) pieces
        omega

end Splitting

/-- `ParseFromString`, which forgets the pieces there were. -/
def parseFromString (commandLine : List Char) (h : commandLine.length < 2 ^ 32) : CommandLine where
  pieces := initializeBuffer [] commandLine
  few := by
    have hle := length_initializeFrom_le [] [] commandLine
    rw [initializeBuffer]
    simp only [List.length_nil] at hle
    omega

section Positional

def isOption (piece : List Char) : Bool := piece.length > 1 && piece.head? = some '-'

/-- The test in `FindPositionalArgumentsIndex` at a piece and those behind it. An empty piece has
its terminator for a first character. -/
def isCounted (piece : List Char) (rest : List (List Char)) : Bool :=
  isOption piece || rest.head?.bind List.head? = some '-'

def positionalFrom (positionalIndex : ℕ) : List (List Char) → ℕ
  | [] => positionalIndex
  | piece :: rest =>
    positionalFrom (if isCounted piece rest then positionalIndex + 1 else positionalIndex) rest

def findPositionalArgumentsIndex (line : CommandLine) : ℕ := positionalFrom 1 (line.pieces.drop 1)

def reach : List (List Char) → ℕ
  | [] => 0
  | piece :: rest => if (piece :: rest).any isOption then reach rest + 1 else 0

def leftOut : List (List Char) → ℕ
  | [] => 0
  | piece :: rest =>
    if (piece :: rest).any isOption ∧ !isCounted piece rest then leftOut rest + 1 else leftOut rest

/-- How many arguments behind the last switch are counted: those before a lone dash. -/
def countedBehind : List (List Char) → ℕ
  | [] => 0
  | piece :: rest =>
    if !(piece :: rest).any isOption ∧ isCounted piece rest then countedBehind rest + 1
    else countedBehind rest

theorem reach_eq_zero {args : List (List Char)} (h : args.any isOption = false) :
    reach args = 0 := by
  cases args with
  | nil => rfl
  | cons piece rest => rw [reach, h, if_neg Bool.false_ne_true]

theorem positionalFrom_eq (args : List (List Char)) (n : ℕ) :
    positionalFrom n args + leftOut args = n + reach args + countedBehind args := by
  induction args generalizing n with
  | nil => rfl
  | cons piece rest ih =>
    rw [positionalFrom, leftOut, reach, countedBehind]
    have hcounted := ih (n + 1)
    have hpassed := ih n
    cases hany : (piece :: rest).any isOption with
    | true => cases isCounted piece rest <;> simp <;> omega
    | false =>
      have hrest : rest.any isOption = false := by
        rw [any_cons, Bool.or_eq_false_iff] at hany
        exact hany.2
      rw [reach_eq_zero hrest] at hcounted hpassed
      cases isCounted piece rest <;> simp <;> omega

theorem reach_le_iff (args : List (List Char)) (k : ℕ) :
    reach args ≤ k ↔ ∀ piece ∈ args.drop k, isOption piece = false := by
  induction args generalizing k with
  | nil => simp [reach]
  | cons piece rest ih =>
    cases hany : (piece :: rest).any isOption with
    | true =>
      rw [reach, hany, if_pos rfl]
      cases k with
      | zero =>
        refine iff_of_false (by omega) fun h => ?_
        obtain ⟨option, hmem, hoption⟩ := any_eq_true.mp hany
        exact absurd (hoption.symm.trans (h option hmem)) (by decide)
      | succ k => rw [Nat.add_le_add_iff_right, ih, drop_succ_cons]
    | false =>
      rw [reach_eq_zero hany]
      refine iff_of_true (Nat.zero_le k) fun option hmem => ?_
      rw [← Bool.not_eq_true]
      exact any_eq_false.mp hany option (mem_of_mem_drop hmem)

/-- The index is the least one with no switch from it on exactly where the arguments that the count
leaves out before the last switch make up for the ones that it counts behind it. -/
theorem isLeast_positional_iff (line : CommandLine) :
    IsLeast {i | 1 ≤ i ∧ ∀ piece ∈ line.pieces.drop i, isOption piece = false}
        line.findPositionalArgumentsIndex ↔
      leftOut (line.pieces.drop 1) = countedBehind (line.pieces.drop 1) := by
  have hset : {i | 1 ≤ i ∧ ∀ piece ∈ line.pieces.drop i, isOption piece = false} =
      Set.Ici (1 + reach (line.pieces.drop 1)) := by
    ext i
    have hdrop (k : ℕ) : line.pieces.drop (1 + k) = (line.pieces.drop 1).drop k := by
      rw [drop_drop]
    rw [Set.mem_ofPred_eq, Set.mem_Ici]
    constructor
    · rintro ⟨hone, hnone⟩
      obtain ⟨k, rfl⟩ := Nat.exists_eq_add_of_le hone
      rw [hdrop, ← reach_le_iff] at hnone
      omega
    · intro hle
      obtain ⟨k, rfl⟩ := Nat.exists_eq_add_of_le (Nat.le_trans (Nat.le_add_right 1 _) hle)
      rw [hdrop, ← reach_le_iff]
      omega
  have hcount := positionalFrom_eq (line.pieces.drop 1) 1
  rw [hset, findPositionalArgumentsIndex]
  constructor
  · intro h
    have heq := h.unique isLeast_Ici
    omega
  · intro h
    have heq : positionalFrom 1 (line.pieces.drop 1) = 1 + reach (line.pieces.drop 1) := by omega
    rw [heq]
    exact isLeast_Ici

/-- The argument `a` before another one is not counted. -/
theorem not_isLeast_positional : ¬∀ line : CommandLine, line.pieces ≠ [] →
    IsLeast {i | 1 ≤ i ∧ ∀ piece ∈ line.pieces.drop i, isOption piece = false}
      line.findPositionalArgumentsIndex := by
  intro h
  have hleast := (h ⟨["app".toList, "a".toList, "b".toList, "-v".toList], by decide⟩ (by decide)).1.2
  exact absurd hleast (by decide)

end Positional

end Equilibrium.CommandLine
