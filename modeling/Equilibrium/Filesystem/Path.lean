import Equilibrium.Library.Fallible
import Equilibrium.Memory.AllocationSize
import Equilibrium.Strings.BaseStringSearch
import Equilibrium.Strings.StringRef
import Mathlib.Data.List.Destutter

/-! `Path` of `base/filesystem/path.cc` in its POSIX build: `DirName` stays inside of the text, and
the walk to the parents comes to its end. The text is the list of its bytes; a read, an `erase` or a
`resize` that leaves it gives `none`. -/

namespace Equilibrium.Path

open AllocationSize (wrapAdd)
open BaseString (npos)
open Library.Fallible (iterate Shrinks)

abbrev BufferType := List UInt8

def kSeparator : UInt8 := 0x2f

/-- The array `u8"\\/"`, with its NUL. -/
def kSeparators : List UInt8 := [0x5c, 0x2f, 0]

def kSeparatorsLength : ℕ := kSeparators.length

def kCurrentDirectory : BufferType := [0x2e]

def isSeparator (character : UInt8) : Bool :=
  (kSeparators.take (kSeparatorsLength - 1)).contains character

def isLetter (c : UInt8) : Bool := (0x41 ≤ c && c ≤ 0x5a) || (0x61 ≤ c && c ≤ 0x7a)

/-- `FindDriveLetter`; the text comes as a view, whose length has 32 bits. -/
def findDriveLetter (path : BufferType) : Option ℕ :=
  if StringRef.toU32 path.length ≥ 2 then do
    let colon ← path[1]?
    if colon = 0x3a then do
      let letter ← path[0]?
      return if isLetter letter then 1 else npos
    else return npos
  else some npos

def resize (buffer : BufferType) (newSize : ℕ) : Option BufferType :=
  if newSize ≤ buffer.length then some (buffer.take newSize) else none

def erase (buffer : BufferType) (pos count : ℕ) : Option BufferType :=
  if pos ≤ buffer.length then some (buffer.take pos ++ buffer.drop (pos + count)) else none

/-- `find_last_of(s, npos, s_len)` -/
def findLastOf (buffer s : BufferType) (sLen : ℕ) : Option ℕ :=
  if buffer.length = 0 ∨ sLen = 0 then some npos
  else BaseString.Text.scanDown (fun i => buffer[i]?.map (s.take sLen).contains) buffer.length

/-- The loop of `Normalize`. Where a slash is erased, `--i` and `++i` cancel. -/
def normalizeLoop : ℕ → ℕ → BufferType → Option BufferType
  | 0, _, _ => none
  | rounds + 1, i, buffer =>
    if i < buffer.length then do
      let c ← buffer[i]?
      if c = kSeparator then
        if i + 1 < buffer.length then do
          let next ← buffer[i + 1]?
          if next = kSeparator then do
            let buffer ← erase buffer (i + 1) 1
            normalizeLoop rounds i (buffer.set i kSeparator)
          else normalizeLoop rounds (i + 1) (buffer.set i kSeparator)
        else normalizeLoop rounds (i + 1) (buffer.set i kSeparator)
      else normalizeLoop rounds (i + 1) buffer
    else some buffer

/-- Every round of the loop has one character less to look at. -/
def normalize (buffer : BufferType) : Option BufferType :=
  normalizeLoop (buffer.length + 1) 0 buffer

/-- `Path(const BufferType&)` and `Path(const Path&)` -/
def construct (path : BufferType) : Option BufferType := normalize path

/-- The condition in the loop of `StripTrailingSeparators`: two separators alone at the beginning
stay, unless the text began with more. -/
def strips (start pos lastStripped : ℕ) (buffer : BufferType) : Option Bool :=
  if pos ≠ start + 1 ∨ lastStripped = start + 2 then some true
  else buffer[start - 1]?.map (!isSeparator ·)

/-- The loop of `StripTrailingSeparators`, `pos` characters from the front. -/
def stripLoop (start : ℕ) : ℕ → ℕ → BufferType → Option BufferType
  | 0, _, buffer => some buffer
  | pos + 1, lastStripped, buffer =>
    if pos + 1 > start then do
      let c ← buffer[pos]?
      if isSeparator c then do
        let stripped ← strips start (pos + 1) lastStripped buffer
        if stripped then do
          let buffer ← resize buffer pos
          stripLoop start pos (pos + 1) buffer
        else stripLoop start pos lastStripped buffer
      else some buffer
    else some buffer

def stripTrailingSeparators (path : BufferType) : Option BufferType := do
  let letter ← findDriveLetter path
  stripLoop (wrapAdd letter 2) path.length npos path

/-- The condition of `DirName` for a text in `"//"`. -/
def isAlternateRoot (newPath : BufferType) (letter lastSeparator : ℕ) : Option Bool :=
  if lastSeparator = wrapAdd letter 2 then newPath[wrapAdd letter 1]?.map isSeparator
  else some false

/-- The branches of `DirName` on the last separator. -/
def cutBaseName (newPath : BufferType) (letter lastSeparator : ℕ) : Option BufferType :=
  if lastSeparator = npos then resize newPath (wrapAdd letter 1)
  else if lastSeparator = wrapAdd letter 1 then resize newPath (wrapAdd letter 2)
  else do
    let alternateRoot ← isAlternateRoot newPath letter lastSeparator
    if alternateRoot then resize newPath (wrapAdd letter 3)
    else if lastSeparator ≠ 0 then resize newPath lastSeparator
    else some newPath

def dirName (path : BufferType) : Option BufferType := do
  let newPath ← construct path
  let newPath ← stripTrailingSeparators newPath
  let letter ← findDriveLetter newPath
  let lastSeparator ← findLastOf newPath kSeparators (kSeparatorsLength - 1)
  let newPath ← cutBaseName newPath letter lastSeparator
  let newPath ← stripTrailingSeparators newPath
  return if newPath.length = 0 then kCurrentDirectory else newPath

/-- The loop of `CreateDirectoryAndGetError` that collects the parents. -/
def collectLoop : ℕ → List BufferType → BufferType → BufferType → Option (List BufferType)
  | 0, _, _, _ => none
  | rounds + 1, subpaths, lastPath, path =>
    if path ≠ lastPath then do
      let copy ← construct path
      let next ← dirName path
      collectLoop rounds (subpaths ++ [copy]) path next
    else some subpaths

def collectParents (rounds : ℕ) (fullPath : BufferType) : Option (List BufferType) := do
  let lastPath ← construct fullPath
  let first ← construct fullPath
  let path ← dirName fullPath
  collectLoop rounds [first] lastPath path

section Normalize

variable {front rest path : BufferType} {rounds : ℕ}

/-- Not both are slashes. -/
def Apart (c d : UInt8) : Prop := ¬(c = kSeparator ∧ d = kSeparator)

instance : DecidableRel Apart := fun _ _ => inferInstanceAs (Decidable (¬_))

theorem erase_eq {pos count : ℕ} (h : pos ≤ path.length) :
    erase path pos count = some (path.take pos ++ path.drop (pos + count)) := if_pos h

theorem resize_eq {n : ℕ} (h : n ≤ path.length) : resize path n = some (path.take n) := if_pos h

theorem erase_second (front rest : BufferType) (c d : UInt8) :
    erase (front ++ c :: d :: rest) (front.length + 1) 1 = some (front ++ c :: rest) := by
  rw [erase_eq (by simp), List.take_length_add_append, Nat.add_assoc, List.drop_length_add_append,
    List.append_assoc]
  rfl

theorem set_separator (front rest : BufferType) :
    (front ++ kSeparator :: rest).set front.length kSeparator = front ++ kSeparator :: rest := by
  rw [List.set_append_right _ _ le_rfl, Nat.sub_self]
  rfl

theorem destutter_cons_cons_of_apart {c d : UInt8} (h : Apart c d) :
    (c :: d :: rest).destutter Apart = c :: (d :: rest).destutter Apart :=
  List.destutter'_cons_pos rest h

theorem destutter_separators : (kSeparator :: kSeparator :: rest).destutter Apart =
    (kSeparator :: rest).destutter Apart :=
  List.destutter'_cons_neg rest fun h => h ⟨rfl, rfl⟩

theorem normalizeLoop_eq (h : rest.length < rounds) :
    normalizeLoop rounds front.length (front ++ rest) = some (front ++ rest.destutter Apart) := by
  induction rounds generalizing front rest with
  | zero => cases h
  | succ rounds ih =>
    match rest with
    | [] => simp [normalizeLoop]
    | c :: rest =>
      have hnext : ∀ (d : UInt8) (l : BufferType),
          normalizeLoop rounds (front.length + 1) (front ++ d :: l) =
            normalizeLoop rounds (front ++ [d]).length ((front ++ [d]) ++ l) := by
        simp
      have hlength : rest.length < rounds := Nat.lt_of_succ_lt_succ h
      have hhere : front.length < (front ++ c :: rest).length := by simp
      rw [normalizeLoop, if_pos hhere, List.getElem?_append_right le_rfl, Nat.sub_self]
      change (if c = kSeparator then _ else _) = _
      by_cases hc : c = kSeparator
      · subst hc
        rw [if_pos rfl, set_separator]
        match rest with
        | [] =>
          rw [if_neg (by simp), hnext, ih hlength]
          simp
        | d :: rest =>
          rw [if_pos (by simp), List.getElem?_append_right (Nat.le_add_right front.length 1),
            Nat.add_sub_cancel_left]
          change (if d = kSeparator then _ else _) = _
          by_cases hd : d = kSeparator
          · subst hd
            rw [if_pos rfl, erase_second]
            change normalizeLoop rounds front.length (List.set _ _ _) = _
            rw [set_separator, ih hlength, destutter_separators]
          · rw [if_neg hd, hnext, ih hlength,
              destutter_cons_cons_of_apart fun h => hd h.2, List.append_assoc]
            rfl
      · rw [if_neg hc, hnext, ih hlength]
        match rest with
        | [] => simp
        | d :: rest =>
          rw [destutter_cons_cons_of_apart fun h => hc h.1, List.append_assoc]
          rfl

theorem normalize_eq (path : BufferType) : normalize path = some (path.destutter Apart) := by
  have hloop : normalizeLoop (path.length + 1) ([] : BufferType).length ([] ++ path) = _ :=
    normalizeLoop_eq (Nat.lt_succ_self _)
  exact hloop

end Normalize

variable {path buffer b q : BufferType} {o : Option BufferType} {letter lastSeparator start pos : ℕ}

/-- A step that keeps the front of the text. -/
def Shortens (buffer : BufferType) (o : Option BufferType) : Prop :=
  ∃ n ≤ buffer.length, o = some (buffer.take n)

theorem Shortens.refl (buffer : BufferType) : Shortens buffer (some buffer) :=
  ⟨buffer.length, le_rfl, by rw [List.take_length]⟩

theorem Shortens.resize {n : ℕ} (h : n ≤ buffer.length) : Shortens buffer (resize buffer n) :=
  ⟨n, h, resize_eq h⟩

theorem Shortens.bind {f : BufferType → Option BufferType} (h : Shortens buffer o)
    (hf : ∀ n ≤ buffer.length, Shortens (buffer.take n) (f (buffer.take n))) :
    Shortens buffer (o >>= f) := by
  obtain ⟨n, hn, rfl⟩ := h
  obtain ⟨k, hk, heq⟩ := hf n hn
  rw [List.length_take, Nat.min_eq_left hn] at hk
  refine ⟨k, hk.trans hn, heq.trans ?_⟩
  rw [List.take_take, Nat.min_eq_left hk]

section Steps

theorem findDriveLetter_cases (path : BufferType) : ∃ letter, findDriveLetter path = some letter ∧
    (letter = npos ∨ letter = 1 ∧ 2 ≤ path.length) := by
  rw [findDriveLetter]
  split
  case isFalse => exact ⟨npos, rfl, .inl rfl⟩
  case isTrue hlong =>
    have hlength : 2 ≤ path.length := hlong.trans (StringRef.toU32_le _)
    match path, hlength with
    | first :: colon :: rest, hlength =>
      change ∃ letter, (if colon = 0x3a then some (if isLetter first then 1 else npos)
        else some npos) = some letter ∧ _
      split
      case isFalse => exact ⟨npos, rfl, .inl rfl⟩
      case isTrue =>
        refine ⟨_, rfl, ?_⟩
        split
        case isTrue => exact .inr ⟨rfl, hlength⟩
        case isFalse => exact .inl rfl

theorem findLastOf_cases (buffer s : BufferType) (sLen : ℕ) :
    ∃ r, findLastOf buffer s sLen = some r ∧ (r = npos ∨ r < buffer.length) := by
  rw [findLastOf]
  split
  case isTrue => exact ⟨npos, rfl, .inl rfl⟩
  case isFalse =>
    have hhit : ∀ k, k < buffer.length → ∃ b, buffer[k]?.map (s.take sLen).contains = some b ∧
        (b = true ↔ ∃ c ∈ s.take sLen, buffer[k]? = some c) := by
      intro k hk
      rw [List.getElem?_eq_getElem hk]
      refine ⟨(s.take sLen).contains buffer[k], rfl, ?_⟩
      rw [List.contains_iff_mem]
      simp
    obtain ⟨found, hscan, hlast⟩ := BaseString.scanDown_last hhit
    refine ⟨_, hscan, ?_⟩
    cases found with
    | none => exact .inl rfl
    | some r => exact .inr hlast.1.1

theorem strips_total (pos lastStripped : ℕ) (h : start - 1 < buffer.length) :
    ∃ stripped, strips start pos lastStripped buffer = some stripped := by
  rw [strips, List.getElem?_eq_getElem h]
  split
  case isTrue => exact ⟨true, rfl⟩
  case isFalse => exact ⟨!isSeparator buffer[start - 1], rfl⟩

theorem stripLoop_shortens (hstart : 1 ≤ start) (lastStripped : ℕ) (hpos : pos ≤ buffer.length) :
    Shortens buffer (stripLoop start pos lastStripped buffer) := by
  induction pos generalizing lastStripped buffer with
  | zero => exact .refl buffer
  | succ pos ih =>
    rw [stripLoop]
    split
    case isFalse => exact .refl buffer
    case isTrue hlong =>
      have hread : buffer[pos]? = some buffer[pos] := List.getElem?_eq_getElem hpos
      have hfirst : start - 1 < buffer.length := by omega
      obtain ⟨stripped, hstrips⟩ := strips_total (pos + 1) lastStripped hfirst
      rw [hread, hstrips]
      change Shortens buffer (if isSeparator buffer[pos] then
        (if stripped then resize buffer pos >>= stripLoop start pos (pos + 1)
          else stripLoop start pos lastStripped buffer) else some buffer)
      split
      case isFalse => exact .refl buffer
      case isTrue =>
        have hle : pos ≤ buffer.length := Nat.le_of_succ_le hpos
        cases stripped with
        | false => exact ih lastStripped hle
        | true =>
          have hlength : (buffer.take pos).length = pos := by
            rw [List.length_take, Nat.min_eq_left hle]
          obtain ⟨n, hn, heq⟩ := ih (pos + 1) hlength.ge
          rw [hlength] at hn
          refine ⟨n, hn.trans hle, ?_⟩
          rw [resize_eq hle]
          refine heq.trans ?_
          rw [List.take_take, Nat.min_eq_left hn]

theorem stripTrailingSeparators_shortens (path : BufferType) :
    Shortens path (stripTrailingSeparators path) := by
  obtain ⟨letter, hletter, hcases⟩ := findDriveLetter_cases path
  -- without a drive letter the start is one: -1 + 2
  have hstart : 1 ≤ wrapAdd letter 2 := by
    rcases hcases with rfl | ⟨rfl, -⟩ <;> decide
  rw [stripTrailingSeparators, hletter]
  exact stripLoop_shortens hstart npos le_rfl

theorem cutBaseName_shortens (hletter : letter = npos ∨ letter = 1 ∧ 2 ≤ path.length)
    (hlast : lastSeparator = npos ∨ lastSeparator < path.length) :
    Shortens path (cutBaseName path letter lastSeparator) := by
  have hone : wrapAdd letter 1 ≤ path.length := by
    rcases hletter with rfl | ⟨rfl, hlength⟩
    · exact Nat.zero_le _
    · exact hlength
  have htwo : wrapAdd letter 2 = wrapAdd letter 1 + 1 := by
    rcases hletter with rfl | ⟨rfl, -⟩ <;> rfl
  have hthree : wrapAdd letter 3 = wrapAdd letter 1 + 2 := by
    rcases hletter with rfl | ⟨rfl, -⟩ <;> rfl
  rw [cutBaseName, htwo, hthree]
  split
  case isTrue => exact .resize hone
  case isFalse hfound =>
    have hlt := hlast.resolve_left hfound
    split
    case isTrue hroot => exact .resize (by omega)
    case isFalse =>
      have hdecide : ∃ alternateRoot, isAlternateRoot path letter lastSeparator =
          some alternateRoot ∧ (alternateRoot = true → lastSeparator = wrapAdd letter 1 + 1) := by
        rw [isAlternateRoot, htwo]
        split
        case isTrue hsecond =>
          rw [List.getElem?_eq_getElem (by omega)]
          exact ⟨_, rfl, fun _ => hsecond⟩
        case isFalse => exact ⟨false, rfl, nofun⟩
      obtain ⟨alternateRoot, heq, hsecond⟩ := hdecide
      rw [heq]
      change Shortens path (if alternateRoot then resize path (wrapAdd letter 1 + 2)
        else if lastSeparator ≠ 0 then resize path lastSeparator else some path)
      split
      case isTrue hdouble =>
        have := hsecond hdouble
        exact .resize (by omega)
      case isFalse =>
        split
        case isTrue => exact .resize hlt.le
        case isFalse => exact .refl path

end Steps

section DirName

theorem dirName_eq (path : BufferType) : ∃ n ≤ (path.destutter Apart).length,
    dirName path = some (if ((path.destutter Apart).take n).length = 0 then kCurrentDirectory
      else (path.destutter Apart).take n) := by
  have hcut : Shortens (path.destutter Apart) (do
      let newPath ← stripTrailingSeparators (path.destutter Apart)
      let letter ← findDriveLetter newPath
      let lastSeparator ← findLastOf newPath kSeparators (kSeparatorsLength - 1)
      let newPath ← cutBaseName newPath letter lastSeparator
      stripTrailingSeparators newPath) := by
    refine (stripTrailingSeparators_shortens _).bind fun n _ => ?_
    obtain ⟨letter, hletter, hcases⟩ := findDriveLetter_cases ((path.destutter Apart).take n)
    obtain ⟨lastSeparator, hlast, hbound⟩ := findLastOf_cases ((path.destutter Apart).take n)
      kSeparators (kSeparatorsLength - 1)
    rw [hletter, hlast]
    exact (cutBaseName_shortens hcases hbound).bind fun k _ => stripTrailingSeparators_shortens _
  obtain ⟨n, hn, heq⟩ := hcut
  refine ⟨n, hn, ?_⟩
  rw [dirName, construct, normalize_eq]
  simp only [Option.bind_eq_bind, Option.bind_some] at heq ⊢
  simp only [← Option.bind_assoc] at heq ⊢
  rw [heq]
  rfl

/-- How far a text is from the current directory, which comes last. -/
def distance (path : BufferType) : ℕ := if path = kCurrentDirectory then 0 else path.length + 1

theorem distance_le (path : BufferType) : distance path ≤ path.length + 1 := by
  rw [distance]
  split
  case isTrue => exact Nat.zero_le _
  case isFalse => exact le_rfl

/-- The text of a `Path` after it was built. -/
def Normal (path : BufferType) : Prop := path.IsChain Apart

theorem normal_destutter (path : BufferType) : Normal (path.destutter Apart) :=
  List.isChain_destutter Apart path

theorem normal_currentDirectory : Normal kCurrentDirectory := by
  rw [Normal, kCurrentDirectory]
  simp

theorem Normal.destutter (h : Normal path) : path.destutter Apart = path :=
  List.destutter_of_isChain Apart path h

theorem Normal.construct (h : Normal path) : construct path = some path := by
  rw [Path.construct, normalize_eq, h.destutter]

theorem dirName_destutter (path : BufferType) : dirName (path.destutter Apart) = dirName path := by
  rw [dirName, dirName, construct, construct, normalize_eq, normalize_eq, List.destutter_idem]

theorem dirName_shrinks : Shrinks Normal distance dirName := by
  intro path hpath
  obtain ⟨n, hn, heq⟩ := dirName_eq path
  rw [hpath.destutter] at hn heq
  refine ⟨_, heq, ?_⟩
  split
  case isTrue hempty =>
    refine ⟨normal_currentDirectory, ?_⟩
    by_cases hcurrent : path = kCurrentDirectory
    · exact .inl hcurrent.symm
    · right
      rw [distance, distance, if_pos rfl, if_neg hcurrent]
      exact Nat.succ_pos _
  case isFalse hempty =>
    refine ⟨List.IsChain.take hpath n, ?_⟩
    rcases Nat.lt_or_eq_of_le hn with hless | rfl
    · right
      have hlength : (path.take n).length = n := by rw [List.length_take, Nat.min_eq_left hn]
      have hlong : path ≠ kCurrentDirectory := by
        intro hcurrent
        subst hcurrent
        simp only [kCurrentDirectory, List.length_singleton] at hless
        omega
      have hdistance := distance_le (path.take n)
      rw [show distance path = path.length + 1 from if_neg hlong]
      omega
    · exact .inl (List.take_length)

theorem dirName_total (path : BufferType) :
    ∃ q, dirName path = some q ∧ Normal q ∧ distance q ≤ path.length + 1 := by
  obtain ⟨q, heq, hq, hcases⟩ := dirName_shrinks _ (normal_destutter path)
  rw [dirName_destutter] at heq
  have hless := (distance_le (path.destutter Apart)).trans
    (Nat.succ_le_succ (List.destutter_sublist Apart path).length_le)
  refine ⟨q, heq, hq, ?_⟩
  rcases hcases with rfl | hcases
  · exact hless
  · exact hcases.le.trans hless

end DirName

section Parents

variable {subpaths : List BufferType} {lastPath : BufferType} {rounds : ℕ}

/-- What the loop has collected: each is the parent of the one before, and the next one is known. -/
structure Collected (subpaths : List BufferType) (lastPath path : BufferType) : Prop where
  chain : subpaths.IsChain (dirName · = some ·)
  last : subpaths.getLast? = some lastPath
  next : dirName lastPath = some path

theorem Collected.push (h : Collected subpaths lastPath path) (hnext : dirName path = some q) :
    Collected (subpaths ++ [path]) path q where
  chain := by
    refine h.chain.append (List.isChain_singleton path) fun p hp c hc => ?_
    rw [h.last] at hp
    cases hp
    cases hc
    exact h.next
  last := List.getLast?_concat
  next := hnext

theorem collectLoop_ends (h : Collected subpaths lastPath path) (hpath : Normal path)
    (hrounds : distance path + 1 < rounds) : ∃ found last,
      collectLoop rounds subpaths lastPath path = some found ∧ Collected found last last := by
  induction rounds generalizing subpaths lastPath path with
  | zero => cases hrounds
  | succ rounds ih =>
    rw [collectLoop]
    split
    case isFalse hsame =>
      obtain rfl : path = lastPath := not_not.mp hsame
      exact ⟨subpaths, path, rfl, h⟩
    case isTrue =>
      obtain ⟨next, hnext, hnormal, hcases⟩ := dirName_shrinks path hpath
      rw [hpath.construct, hnext]
      change ∃ found last, collectLoop rounds (subpaths ++ [path]) path next = some found ∧ _
      rcases hcases with rfl | hless
      · cases rounds with
        | zero => omega
        | succ rounds =>
          rw [collectLoop, if_neg (not_not.mpr rfl)]
          exact ⟨_, next, rfl, h.push hnext⟩
      · exact ih (h.push hnext) hnormal (by omega)

/-- The parents up to one that is its own. -/
theorem collectParents_ends (path : BufferType) (h : path.length + 2 < rounds) :
    ∃ found last, collectParents rounds path = some found ∧ Collected found last last := by
  obtain ⟨q, heq, hq, hdistance⟩ := dirName_total path
  rw [collectParents, construct, normalize_eq, heq]
  refine collectLoop_ends ⟨List.isChain_singleton _, rfl, ?_⟩ hq (by omega)
  rw [dirName_destutter, heq]

end Parents

section BaseName

end BaseName

theorem normalize_normal (path : BufferType) : ∃ b, normalize path = some b ∧
    normalize b = some b ∧ ∀ i, ¬(b[i]? = some kSeparator ∧ b[i + 1]? = some kSeparator) := by
  refine ⟨_, normalize_eq path, ?_, fun i => ?_⟩
  · rw [normalize_eq, List.destutter_idem]
  · rintro ⟨hc, hd⟩
    obtain ⟨_, hfirst⟩ := List.getElem?_eq_some_iff.mp hc
    obtain ⟨hi, hsecond⟩ := List.getElem?_eq_some_iff.mp hd
    exact (normal_destutter path).getElem i hi ⟨hfirst, hsecond⟩

/-- Every walk upwards stays in its texts and comes to rest, and so does the loop over the
parents. -/
theorem dirName_settles (path : BufferType) : (∀ n, ∃ q, iterate dirName n path = some q) ∧
    (∃ q, dirName q = some q ∧ ∀ n ≥ path.length + 2, iterate dirName n path = some q) ∧
    (∀ rounds > path.length + 2, ∃ subpaths, collectParents rounds path = some subpaths) ∧
    ∃ b, normalize path = some b ∧ normalize b = some b ∧
      ∀ i, ¬(b[i]? = some kSeparator ∧ b[i + 1]? = some kSeparator) := by
  obtain ⟨q, heq, hq, hdistance⟩ := dirName_total path
  refine ⟨fun n => ?total, ?rest, fun rounds hrounds => ?loop, normalize_normal path⟩
  case total =>
    cases n with
    | zero => exact ⟨path, rfl⟩
    | succ n =>
      obtain ⟨r, hr, -⟩ := dirName_shrinks.iterate hq n
      exact ⟨r, by rw [iterate, heq, Option.bind_some, hr]⟩
  case rest =>
    obtain ⟨r, -, hstill, hrest⟩ := dirName_shrinks.settles hq
    refine ⟨r, hstill, fun n hn => ?_⟩
    cases n with
    | zero => omega
    | succ n =>
      rw [iterate, heq, Option.bind_some]
      exact hrest n (by omega)
  case loop =>
    obtain ⟨found, last, hfound, -⟩ := collectParents_ends path hrounds
    exact ⟨found, hfound⟩

end Equilibrium.Path
