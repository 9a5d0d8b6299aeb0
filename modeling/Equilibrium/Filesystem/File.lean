import Equilibrium.Library.ArrayWrite
import Mathlib.Algebra.Group.Int.Defs
import Mathlib.Algebra.Group.Nat.Defs

/-! `ReadFile` and `WriteFile` of `base/filesystem/file.cc` over the POSIX calls that
`base/filesystem/posix/file_posix.cc` makes. The operating system is a store of file bytes
and open descriptors, and a schedule that says how many of the requested bytes each
transfer moves. -/

namespace Equilibrium.File

open Library
open Function (update)

/-! The flags of `File` and those of `open`. -/

def FLAG_OPEN : UInt32 := (1 : UInt32) <<< 0
def FLAG_CREATE : UInt32 := (1 : UInt32) <<< 1
def FLAG_OPEN_ALWAYS : UInt32 := (1 : UInt32) <<< 2
def FLAG_CREATE_ALWAYS : UInt32 := (1 : UInt32) <<< 3
def FLAG_OPEN_TRUNCATED : UInt32 := (1 : UInt32) <<< 4
def FLAG_READ : UInt32 := (1 : UInt32) <<< 5
def FLAG_WRITE : UInt32 := (1 : UInt32) <<< 6
def FLAG_APPEND : UInt32 := (1 : UInt32) <<< 7
def FLAG_DELETE_ON_CLOSE : UInt32 := (1 : UInt32) <<< 13
def FLAG_WRITE_ATTRIBUTES : UInt32 := (1 : UInt32) <<< 14
def FLAG_TERMINAL_DEVICE : UInt32 := (1 : UInt32) <<< 16

structure OpenFlags where
  creat : Bool := false
  excl : Bool := false
  trunc : Bool := false
  wronly : Bool := false
  rdwr : Bool := false
  append : Bool := false
  noctty : Bool := false
  ndelay : Bool := false
  deriving DecidableEq, Repr

/-- `O_RDONLY` is zero, so this is the access mode of a file opened without one. -/
def OpenFlags.readable (flags : OpenFlags) : Bool := flags.rdwr || !flags.wronly

def OpenFlags.writable (flags : OpenFlags) : Bool := flags.rdwr || flags.wronly

inductive Whence where
  | fromBegin | fromCurrent | fromEnd
  deriving DecidableEq, Repr

/-! The operating system. -/

/-- What an open descriptor refers to. -/
structure Description where
  inode : ℕ
  flags : OpenFlags
  position : ℕ
  deriving DecidableEq, Repr

structure System (Path : Type) where
  names : Path → Option ℕ
  contents : ℕ → List UInt8
  nextInode : ℕ
  descriptors : ℕ → Option Description
  nextDescriptor : ℕ
  /-- transfers made so far -/
  transfers : ℕ
  /-- bytes of memory that `new` leaves as they are -/
  memory : ℕ → UInt8

/-- For every transfer and every number of bytes that it could move, how many it moves. -/
structure Schedule where
  moved : ℕ → ℕ → ℕ
  moved_pos : ∀ transfer n, 1 ≤ n → 1 ≤ moved transfer n
  moved_le : ∀ transfer n, moved transfer n ≤ n

variable {Path : Type} [DecidableEq Path]

/-- The bytes of the file that a path names. -/
def System.bytesAt (s : System Path) (path : Path) : Option (List UInt8) :=
  (s.names path).map s.contents

/-- A descriptor, `none` for -1. -/
abbrev PlatformFile := Option ℕ

def System.describe (s : System Path) (inode : ℕ) (flags : OpenFlags) :
    System Path × PlatformFile :=
  ({ s with
      descriptors := update s.descriptors s.nextDescriptor (some ⟨inode, flags, 0⟩)
      nextDescriptor := s.nextDescriptor + 1 }, some s.nextDescriptor)

/-- `open`, which makes or truncates the file as its flags say. -/
def sysOpen (s : System Path) (path : Path) (flags : OpenFlags) : System Path × PlatformFile :=
  match s.names path with
  | some inode =>
    if flags.creat && flags.excl then (s, none)
    else if flags.trunc then
      { s with contents := update s.contents inode [] }.describe inode flags
    else s.describe inode flags
  | none =>
    if flags.creat then
      { s with
          names := update s.names path (some s.nextInode)
          contents := update s.contents s.nextInode []
          nextInode := s.nextInode + 1 }.describe s.nextInode flags
    else (s, none)

def sysUnlink (s : System Path) (path : Path) : System Path :=
  { s with names := update s.names path none }

def sysClose (s : System Path) (fd : ℕ) : System Path :=
  { s with descriptors := update s.descriptors fd none }

def System.seekBase (s : System Path) (file : Description) : Whence → ℤ
  | .fromBegin => 0
  | .fromCurrent => file.position
  | .fromEnd => (s.contents file.inode).length

def lseek (s : System Path) (fd : PlatformFile) (offset : ℤ) (whence : Whence) : System Path × ℤ :=
  match fd.bind s.descriptors, fd with
  | some file, some n =>
    let target := s.seekBase file whence + offset
    if target < 0 then (s, -1)
    else
      let after := { file with position := target.toNat }
      ({ s with descriptors := update s.descriptors n (some after) }, target)
  | _, _ => (s, -1)

/-- The bytes that `pread` moves, none at the end of the file. -/
def pread (os : Schedule) (s : System Path) (fd : PlatformFile) (count : ℕ) (offset : ℤ) :
    System Path × ℤ × List UInt8 :=
  match fd.bind s.descriptors with
  | some file =>
    if file.flags.readable && 0 ≤ offset then
      let behind := (s.contents file.inode).drop offset.toNat
      let moved := os.moved s.transfers (min count behind.length)
      ({ s with transfers := s.transfers + 1 }, (moved : ℤ), behind.take moved)
    else (s, -1, [])
  | none => (s, -1, [])

/-- The bytes of a file after some are written at an offset, a gap filled with zeros. -/
def writtenAt (bytes : List UInt8) (offset : ℕ) (chunk : List UInt8) : List UInt8 :=
  bytes.take offset ++ List.replicate (offset - bytes.length) 0 ++ chunk ++
    bytes.drop (offset + chunk.length)

def pwrite (os : Schedule) (s : System Path) (fd : PlatformFile) (data : List UInt8) (count : ℕ)
    (offset : ℤ) : System Path × ℤ :=
  match fd.bind s.descriptors with
  | some file =>
    if file.flags.writable && 0 ≤ offset then
      let moved := os.moved s.transfers count
      let bytes := s.contents file.inode
      let bytes := if moved = 0 then bytes else writtenAt bytes offset.toNat (data.take moved)
      ({ s with
          contents := update s.contents file.inode bytes
          transfers := s.transfers + 1 }, (moved : ℤ))
    else (s, -1)
  | none => (s, -1)

/-- `write`, at the position of the descriptor or at the end of an appended file. -/
def sysWrite (os : Schedule) (s : System Path) (fd : PlatformFile) (data : List UInt8)
    (count : ℕ) : System Path × ℤ :=
  match fd.bind s.descriptors, fd with
  | some file, some n =>
    let start := if file.flags.append then (s.contents file.inode).length else file.position
    match pwrite os s fd data count start with
    | (s', moved) =>
      if moved < 0 then (s', moved)
      else
        let after := { file with position := start + moved.toNat }
        ({ s' with descriptors := update s'.descriptors n (some after) }, moved)
  | _, _ => (s, -1)

/-! `File` -/

/-- A value of a wider type narrowed to `int`. -/
def toInt (n : ℤ) : ℤ := n.bmod (2 ^ 32)

def isOpenAppend (s : System Path) (fd : PlatformFile) : Bool :=
  match fd.bind s.descriptors with
  | some file => file.flags.append
  | none => true

/-- `DoInitialize`; an unsupported combination of flags leaves the file invalid. -/
def doInitialize (s : System Path) (path : Path) (flags : UInt32) : System Path × PlatformFile :=
  let has := fun flag => flags &&& flag ≠ 0
  let openFlags : OpenFlags := {}
  let openFlags := if has FLAG_CREATE then { creat := true, excl := true } else openFlags
  let openFlags := if has FLAG_CREATE_ALWAYS then { creat := true, trunc := true } else openFlags
  let openFlags := if has FLAG_OPEN_TRUNCATED then { trunc := true } else openFlags
  if openFlags = {} ∧ ¬ has FLAG_OPEN ∧ ¬ has FLAG_OPEN_ALWAYS then (s, none)
  else
    let openFlags :=
      if has FLAG_WRITE ∧ has FLAG_READ then { openFlags with rdwr := true }
      else if has FLAG_WRITE then { openFlags with wronly := true }
      else openFlags
    let openFlags :=
      if has FLAG_TERMINAL_DEVICE then { openFlags with noctty := true, ndelay := true }
      else openFlags
    let openFlags :=
      if has FLAG_APPEND ∧ has FLAG_READ then { openFlags with append := true, rdwr := true }
      else if has FLAG_APPEND then { openFlags with append := true, wronly := true }
      else openFlags
    let (s, descriptor) := sysOpen s path openFlags
    let (s, descriptor) :=
      if has FLAG_OPEN_ALWAYS ∧ descriptor = none then
        sysOpen s path { openFlags with creat := true }
      else (s, descriptor)
    if descriptor = none then (s, none)
    else if has FLAG_DELETE_ON_CLOSE then (sysUnlink s path, descriptor)
    else (s, descriptor)

def close (s : System Path) (file : PlatformFile) : System Path :=
  match file with
  | some fd => sysClose s fd
  | none => s

/-- The loop of `Read` with what it has read; `none` is a write behind the buffer. -/
def readLoop (os : Schedule) (s : System Path) (file : PlatformFile) (offset : ℤ)
    (data : List UInt8) (size bytesRead : ℕ) : Option (System Path × List UInt8 × ℤ) :=
  match pread os s file (size - bytesRead) (offset + bytesRead) with
  | (s, rv, chunk) =>
    match ArrayWrite.write data bytesRead chunk with
    | none => none
    | some data =>
      if _stop : rv ≤ 0 then some (s, data, if bytesRead ≠ 0 then (bytesRead : ℤ) else rv)
      else if _more : bytesRead + rv.toNat < size then
        readLoop os s file offset data size (bytesRead + rv.toNat)
      else some (s, data, (bytesRead + rv.toNat : ℕ))
termination_by size - bytesRead
decreasing_by omega

def read (os : Schedule) (s : System Path) (file : PlatformFile) (offset : ℤ) (data : List UInt8)
    (size : ℤ) : Option (System Path × List UInt8 × ℤ) :=
  if size < 0 then some (s, data, -1) else readLoop os s file offset data size.toNat 0

/-- The loop of `WriteAtCurrentPos` with what it has written. -/
def writeAtCurrentPosLoop (os : Schedule) (s : System Path) (file : PlatformFile)
    (data : List UInt8) (size bytesWritten : ℕ) : System Path × ℤ :=
  match sysWrite os s file (data.drop bytesWritten) (size - bytesWritten) with
  | (s, rv) =>
    if _stop : rv ≤ 0 then (s, if bytesWritten ≠ 0 then (bytesWritten : ℤ) else rv)
    else if _more : bytesWritten + rv.toNat < size then
      writeAtCurrentPosLoop os s file data size (bytesWritten + rv.toNat)
    else (s, (bytesWritten + rv.toNat : ℕ))
termination_by size - bytesWritten
decreasing_by omega

def writeAtCurrentPos (os : Schedule) (s : System Path) (file : PlatformFile)
    (data : List UInt8) (size : ℤ) : System Path × ℤ :=
  if size < 0 then (s, -1) else writeAtCurrentPosLoop os s file data size.toNat 0

/-- The loop of `Write` with what it has written. -/
def writeLoop (os : Schedule) (s : System Path) (file : PlatformFile) (offset : ℤ)
    (data : List UInt8) (total bytesWritten : ℕ) : System Path × ℤ :=
  match pwrite os s file (data.drop bytesWritten) (total - bytesWritten)
      (offset + bytesWritten) with
  | (s, rv) =>
    if _stop : rv ≤ 0 then (s, if bytesWritten ≠ 0 then (bytesWritten : ℤ) else rv)
    else if _more : bytesWritten + rv.toNat < total then
      writeLoop os s file offset data total (bytesWritten + rv.toNat)
    else (s, (bytesWritten + rv.toNat : ℕ))
termination_by total - bytesWritten
decreasing_by omega

/-- `File::Write`, whose size is a `mem_size`. -/
def write (os : Schedule) (s : System Path) (file : PlatformFile) (offset : ℤ) (data : List UInt8)
    (size : ℕ) : System Path × ℤ :=
  if size > 2 ^ 31 - 1 then (s, -1)
  else if isOpenAppend s file then writeAtCurrentPos os s file data size
  else writeLoop os s file offset data size 0

/-! The two functions over whole files. -/

/-- `MakeUnique<u8[]>`: as many bytes as asked for, with what memory holds. -/
def makeUnique (s : System Path) (count : ℕ) : List UInt8 := (List.range count).map s.memory

/-- `ReadFile`: the content, `none` for null, and what it leaves in `opt_size`. -/
def readFile (os : Schedule) (s : System Path) (path : Path) :
    Option (System Path × Option (List UInt8) × Option ℤ) :=
  let (s, file) := doInitialize s path (FLAG_OPEN ||| FLAG_READ)
  if file = none then some (s, none, none)
  else
    let (s, length) := lseek s file 0 .fromEnd
    let content := makeUnique s (length % 2 ^ 64).toNat
    let (s, _) := lseek s file 0 .fromBegin
    match read os s file 0 content (toInt length) with
    | none => none
    | some (s, content, got) =>
      some (close s file, if got = length then some content else none, some length)

def writeFile (os : Schedule) (s : System Path) (path : Path) (data : List UInt8) (size : ℤ) :
    System Path × Bool :=
  let (s, file) := doInitialize s path (FLAG_CREATE_ALWAYS ||| FLAG_WRITE)
  if file = none then (s, false)
  else
    let (s, r) := write os s file 0 data (toInt size % 2 ^ 64).toNat
    (close s file, decide (r = size))

/-! What `WriteFile` leaves at a path is what `ReadFile` gives back, in however many parts the
operating system moves it. The loops are followed by the number of bytes they have moved: the
file holds that many of the bytes to write, and the buffer that many of the bytes to read. -/

open List Option
open Function (update update_self)

variable {Path : Type} {s : System Path} {fd inode : ℕ} {data buffer : List UInt8}
  {flags : OpenFlags} {position : ℕ}

theorem toInt_eq {n : ℤ} (h₀ : 0 ≤ n) (h : n < 2 ^ 31) : toInt n = n :=
  Int.bmod_eq_of_le (by omega) (by omega)

theorem toNat_toInt {n : ℕ} (h : n < 2 ^ 31) : (toInt n % 2 ^ 64).toNat = n := by
  rw [toInt_eq (by omega) (by omega)]
  omega

theorem writtenAt_length (bytes chunk : List UInt8) :
    writtenAt bytes bytes.length chunk = bytes ++ chunk := by
  unfold writtenAt
  rw [take_length, Nat.sub_self, replicate_zero, append_nil,
    drop_eq_nil_of_le (Nat.le_add_right _ _), append_nil]

/-! Writing -/

theorem pwrite_spec (os : Schedule)
    (hfile : s.descriptors fd = some ⟨inode, flags, position⟩)
    (hwritable : flags.writable = true) {b : ℕ} (hb : b ≤ data.length)
    (hheld : s.contents inode = data.take b) :
    ∃ s' moved, pwrite os s (some fd) (data.drop b) (data.length - b) (0 + (b : ℤ)) =
        (s', ((moved : ℕ) : ℤ)) ∧ moved ≤ data.length - b ∧ (b < data.length → 1 ≤ moved) ∧
      s'.contents inode = data.take (b + moved) ∧ s'.names = s.names ∧
      s'.descriptors = s.descriptors := by
  have hle := os.moved_le s.transfers (data.length - b)
  have hpos := os.moved_pos s.transfers (data.length - b)
  have hlength : (data.take b).length = b := by
    rw [length_take]
    omega
  have hoffset : (0 + (b : ℤ)).toNat = (data.take b).length := by omega
  have hwrite : pwrite os s (some fd) (data.drop b) (data.length - b) (0 + (b : ℤ)) = ({ s with
          contents := update s.contents inode
            (data.take (b + os.moved s.transfers (data.length - b)))
          transfers := s.transfers + 1 },
        ((os.moved s.transfers (data.length - b) : ℕ) : ℤ)) := by
    unfold pwrite
    simp only [bind_some, hfile, hwritable, Bool.true_and]
    rw [if_pos (by simp), hheld, hoffset, writtenAt_length, take_add]
    split
    case isTrue hzero => rw [hzero, take_zero, append_nil]
    case isFalse hzero => rfl
  exact ⟨_, _, hwrite, hle, fun h => hpos (by omega), update_self .., rfl, rfl⟩

theorem writeLoop_spec (os : Schedule)
    (hfile : s.descriptors fd = some ⟨inode, flags, position⟩)
    (hwritable : flags.writable = true) {b : ℕ} (hb : b < data.length ∨ b = 0)
    (hheld : s.contents inode = data.take b) :
    ∃ s', writeLoop os s (some fd) 0 data data.length b = (s', (data.length : ℤ)) ∧
      s'.contents inode = data ∧ s'.names = s.names := by
  induction hrest : data.length - b using Nat.strongRecOn generalizing s b with
  | ind rest ih =>
    have hle : b ≤ data.length := by omega
    obtain ⟨s', moved, hwrite, hmoved, hpos, hheld', hnames, hdescriptors⟩ :=
      pwrite_spec os hfile hwritable hle hheld
    unfold writeLoop
    rw [hwrite]
    simp only [Int.toNat_natCast]
    by_cases hstop : (moved : ℤ) ≤ 0
    case pos =>
      have hempty : data = [] := by
        rw [← length_eq_zero_iff]
        omega
      subst hempty
      have hzero : b = 0 := by simpa using hle
      refine ⟨s', ?_, by rw [hheld', take_nil], hnames⟩
      have hmoved' : moved = 0 := by omega
      rw [dif_pos hstop, if_neg (by omega), hmoved']
      rfl
    case neg =>
      rw [dif_neg hstop]
      by_cases hmore : b + moved < data.length
      case pos =>
        rw [dif_pos hmore]
        obtain ⟨s'', hloop, hheld'', hnames'⟩ := ih (data.length - (b + moved)) (by omega)
          (hdescriptors ▸ hfile) (Or.inl hmore) hheld' rfl
        exact ⟨s'', hloop, hheld'', hnames'.trans hnames⟩
      case neg =>
        have hall : b + moved = data.length := by omega
        rw [dif_neg hmore, hall]
        exact ⟨s', rfl, by rw [hheld', hall, take_length], hnames⟩

variable [DecidableEq Path] {path : Path}

theorem doInitialize_write (s : System Path) (path : Path) :
    ∃ s' fd inode flags, doInitialize s path (FLAG_CREATE_ALWAYS ||| FLAG_WRITE) = (s', some fd) ∧
      s'.descriptors fd = some ⟨inode, flags, 0⟩ ∧ flags.writable = true ∧
      flags.append = false ∧ s'.contents inode = [] ∧ s'.names path = some inode := by
  have hopen : doInitialize s path (FLAG_CREATE_ALWAYS ||| FLAG_WRITE) =
      let opened := sysOpen s path { creat := true, trunc := true, wronly := true }
      if opened.2 = none then (opened.1, none) else opened := rfl
  rw [hopen]
  unfold sysOpen
  cases hname : s.names path with
  | some inode =>
    exact ⟨_, _, inode, _, rfl, update_self .., rfl, rfl, update_self .., hname⟩
  | none =>
    exact ⟨_, _, s.nextInode, _, rfl, update_self .., rfl, rfl,
      update_self .., update_self ..⟩

section

omit [DecidableEq Path]

theorem close_contents (s : System Path) (file : PlatformFile) :
    (close s file).contents = s.contents ∧ (close s file).names = s.names := by
  cases file <;> exact ⟨rfl, rfl⟩

theorem write_spec (os : Schedule) (hfile : s.descriptors fd = some ⟨inode, flags, position⟩)
    (hwritable : flags.writable = true) (happend : flags.append = false)
    (hempty : s.contents inode = []) (hsize : data.length < 2 ^ 31) :
    ∃ s', write os s (some fd) 0 data data.length = (s', (data.length : ℤ)) ∧
      s'.contents inode = data ∧ s'.names = s.names := by
  have hheld : s.contents inode = data.take 0 := by rw [hempty, take_zero]
  have hopenAppend : isOpenAppend s (some fd) = false := by
    simp only [isOpenAppend, bind_some, hfile, happend]
  unfold write
  rw [if_neg (by omega), hopenAppend, if_neg Bool.false_ne_true]
  exact writeLoop_spec os hfile hwritable (Or.inr rfl) hheld

end

theorem writeFile_spec (os : Schedule) (s : System Path) (path : Path)
    (hsize : data.length < 2 ^ 31) : (writeFile os s path data data.length).2 = true ∧
      (writeFile os s path data data.length).1.bytesAt path = some data := by
  obtain ⟨s₁, fd, inode, flags, hopen, hfile, hwritable, happend, hempty, hname⟩ :=
    doInitialize_write s path
  obtain ⟨s₂, hwrite, hcontents, hnames⟩ :=
    write_spec os hfile hwritable happend hempty hsize
  have hresult : writeFile os s path data data.length = (close s₂ (some fd), true) := by
    unfold writeFile
    rw [hopen, toNat_toInt hsize]
    simp only [reduceCtorEq, if_false, hwrite, decide_true]
  refine ⟨by rw [hresult], ?_⟩
  obtain ⟨hc, hn⟩ := close_contents s₂ (some fd)
  rw [hresult, System.bytesAt, hn, hc, hnames, hname, map_some, hcontents]

/-! Reading -/

section

omit [DecidableEq Path]

theorem pread_spec (os : Schedule)
    (hfile : s.descriptors fd = some ⟨inode, flags, position⟩)
    (hreadable : flags.readable = true) (hdata : s.contents inode = data) (b : ℕ) :
    ∃ s' moved, pread os s (some fd) (data.length - b) (0 + (b : ℤ)) =
        (s', ((moved : ℕ) : ℤ), (data.drop b).take moved) ∧
      moved ≤ data.length - b ∧ (b < data.length → 1 ≤ moved) ∧
      s'.contents = s.contents ∧ s'.descriptors = s.descriptors := by
  have hle := os.moved_le s.transfers (data.length - b)
  have hpos := os.moved_pos s.transfers (data.length - b)
  have hoffset : (0 + (b : ℤ)).toNat = b := by omega
  have hread : pread os s (some fd) (data.length - b) (0 + (b : ℤ)) =
      ({ s with transfers := s.transfers + 1 },
        ((os.moved s.transfers (data.length - b) : ℕ) : ℤ),
        (data.drop b).take (os.moved s.transfers (data.length - b))) := by
    unfold pread
    simp only [bind_some, hfile, hreadable, Bool.true_and]
    rw [if_pos (by simp), hdata, hoffset, length_drop, Nat.min_self]
  exact ⟨_, _, hread, hle, fun h => hpos (by omega), rfl, rfl⟩

theorem readLoop_spec (os : Schedule)
    (hfile : s.descriptors fd = some ⟨inode, flags, position⟩)
    (hreadable : flags.readable = true) (hdata : s.contents inode = data)
    {b : ℕ} (hb : b < data.length ∨ b = 0) (hbuffer : buffer.length = data.length)
    (hheld : buffer.take b = data.take b) : ∃ s', readLoop os s (some fd) 0 buffer data.length b =
      some (s', data, (data.length : ℤ)) := by
  induction hrest : data.length - b using Nat.strongRecOn generalizing s b buffer with
  | ind rest ih =>
    have hle : b ≤ data.length := by omega
    obtain ⟨s', moved, hread, hmoved, hpos, hcontents, hdescriptors⟩ :=
      pread_spec os hfile hreadable hdata b
    have hlength : ((data.drop b).take moved).length = moved := by
      rw [length_take, length_drop]
      omega
    obtain ⟨filled, hfilled⟩ : ∃ filled,
        ArrayWrite.write buffer b ((data.drop b).take moved) = some filled :=
      ArrayWrite.exists_write (by rw [hlength]; omega)
    have hheld' : filled.take (b + moved) = data.take (b + moved) := by
      have htake := ArrayWrite.take_write hfilled
      rw [hlength] at htake
      rw [htake, hheld, take_add]
    have hbuffer' : filled.length = data.length := (ArrayWrite.length_write hfilled).trans hbuffer
    have hwhole (hall : b + moved = data.length) : filled = data := by
      rw [hall, take_length, ← hbuffer', take_length] at hheld'
      exact hheld'
    unfold readLoop
    rw [hread]
    simp only [hfilled, Int.toNat_natCast]
    by_cases hstop : (moved : ℤ) ≤ 0
    case pos =>
      have hzero : data.length = 0 ∧ b = 0 ∧ moved = 0 := by omega
      obtain ⟨hempty, rfl, rfl⟩ := hzero
      rw [dif_pos hstop, if_neg (by simp), hwhole (by omega), hempty]
      exact ⟨s', rfl⟩
    case neg =>
      rw [dif_neg hstop]
      by_cases hmore : b + moved < data.length
      case pos =>
        rw [dif_pos hmore]
        exact ih (data.length - (b + moved)) (by omega) (hdescriptors ▸ hfile) (hcontents ▸ hdata)
          (Or.inl hmore) hbuffer' hheld' rfl
      case neg =>
        have hall : b + moved = data.length := by omega
        rw [dif_neg hmore, hwhole hall, hall]
        exact ⟨s', rfl⟩

end

theorem doInitialize_read (hbytes : s.bytesAt path = some data) :
    ∃ s' fd inode flags, doInitialize s path (FLAG_OPEN ||| FLAG_READ) = (s', some fd) ∧
      s'.descriptors fd = some ⟨inode, flags, 0⟩ ∧ flags.readable = true ∧
      s'.contents inode = data := by
  obtain ⟨inode, hname, hdata⟩ := map_eq_some_iff.mp hbytes
  have hopen : doInitialize s path (FLAG_OPEN ||| FLAG_READ) = let opened := sysOpen s path {}
      if opened.2 = none then (opened.1, none) else opened := rfl
  rw [hopen]
  unfold sysOpen
  rw [hname]
  exact ⟨_, _, inode, _, rfl, update_self .., rfl, hdata⟩

omit [DecidableEq Path] in
/-- `Seek` moves the position of an open file and answers with it. -/
theorem lseek_spec (hfile : s.descriptors fd = some ⟨inode, flags, position⟩) (whence : Whence)
    (target : ℤ) (hpos : 0 ≤ target)
    (htarget : s.seekBase ⟨inode, flags, position⟩ whence = target) :
    ∃ s', lseek s (some fd) 0 whence = (s', target) ∧ s'.contents = s.contents ∧
      s'.descriptors fd = some ⟨inode, flags, target.toNat⟩ := by
  unfold lseek
  simp only [bind_some, hfile]
  rw [htarget, Int.add_zero, if_neg (by omega)]
  exact ⟨_, rfl, rfl, update_self ..⟩

theorem readFile_spec (os : Schedule) (hsize : data.length < 2 ^ 31)
    (hbytes : s.bytesAt path = some data) :
    ∃ s', readFile os s path = some (s', some data, some (data.length : ℤ)) := by
  obtain ⟨s₁, fd, inode, flags, hopen, hfile, hreadable, hdata⟩ := doInitialize_read hbytes
  obtain ⟨s₂, hend, hcontents, hfile₂⟩ :=
    lseek_spec hfile .fromEnd (data.length : ℤ) (by omega) (by rw [← hdata]; rfl)
  obtain ⟨s₃, hbegin, hcontents₃, hfile₃⟩ := lseek_spec hfile₂ .fromBegin 0 (by omega) rfl
  have hlength : ((data.length : ℤ) % 2 ^ 64).toNat = data.length := by omega
  have hbuffer : (makeUnique s₂ data.length).length = data.length := by simp [makeUnique]
  have hdata₃ : s₃.contents inode = data := by rw [hcontents₃, hcontents, hdata]
  obtain ⟨s₄, hloop⟩ := readLoop_spec os hfile₃ hreadable hdata₃ (Or.inr rfl) hbuffer rfl
  have hread : read os s₃ (some fd) 0 (makeUnique s₂ data.length) (data.length : ℤ) =
      some (s₄, data, (data.length : ℤ)) := by
    unfold read
    rw [if_neg (by omega), Int.toNat_natCast, hloop]
  unfold readFile
  rw [hopen]
  simp only [reduceCtorEq, if_false, hend, hbegin, hlength, toInt_eq (n := data.length) (by omega)
    (by omega), hread, if_true]
  exact ⟨_, rfl⟩

/-- What is written to a path is read back from it, as long as nothing else has changed the
file between. -/
theorem readFile_writeFile (os : Schedule) (s later : System Path) (path : Path)
    (data : List UInt8) (hsize : data.length < 2 ^ 31)
    (hkept : later.bytesAt path = (writeFile os s path data data.length).1.bytesAt path) :
    (writeFile os s path data data.length).2 = true ∧
      ∃ after, readFile os later path = some (after, some data, some (data.length : ℤ)) := by
  obtain ⟨hwritten, hbytes⟩ := writeFile_spec os s path hsize
  exact ⟨hwritten, readFile_spec os hsize (hkept.trans hbytes)⟩

def oneByOne : Schedule where
  moved _ n := min n 1
  moved_pos _ n h := by omega
  moved_le _ n := by omega

def noFiles : System ℕ :=
  ⟨fun _ => none, fun _ => [], 0, fun _ => none, 3, 0, fun i => UInt8.ofNat i⟩

theorem readFile_writeFile_abc : (writeFile oneByOne noFiles 7 [97, 98, 99] 3).2 = true ∧
      ∃ after, readFile oneByOne (writeFile oneByOne noFiles 7 [97, 98, 99] 3).1 7 =
        some (after, some [97, 98, 99], some 3) :=
  readFile_writeFile oneByOne noFiles (writeFile oneByOne noFiles 7 [97, 98, 99] 3).1 7
    [97, 98, 99] (by decide) rfl

end Equilibrium.File
