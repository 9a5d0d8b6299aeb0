import Equilibrium.Filesystem.File

/-! `ReadAndCheck`, `WriteAndCheck` and their `AtCurrentPos` variants of
`base/filesystem/file.cc`, over the loops of `base/filesystem/posix/file_posix.cc`. The operating
system answers each call as it likes: with fewer bytes than are asked for, with none, or with an
error. A run for which it has too few answers does not return. -/

namespace Equilibrium.File

open Library Option
open Int64 (ofNat)

/-- What the operating system has for one call: `EINTR`, another error, or a number of bytes that
it would move. -/
inductive Response
  | interrupted
  | failed
  | moved (count : ℕ)
  deriving DecidableEq

/-- Bytes that went between a position of the file and a place in the buffer, and those behind
them. -/
structure Transfer where
  position : ℤ
  place : ℕ
  count : ℕ
  deriving DecidableEq

/-- An open descriptor, what its calls will be answered and what they have moved. -/
structure Channel where
  position : ℤ
  length : ℤ
  append : Bool
  /-- whether `HANDLE_EINTR` gives up -/
  debug : Bool
  responses : List Response
  log : List Transfer
  deriving DecidableEq

/-- The largest `off_t`. -/
def maxOffset : ℤ := 2 ^ 63 - 1

/-- `HANDLE_EINTR`: the answer that counts, and those that are left. -/
def handleEintr (debug : Bool) : ℕ → List Response → Option (Response × List Response)
  | _, [] => none
  | counter, .interrupted :: responses =>
    if debug && counter ≥ 100 then some (.interrupted, responses)
    else handleEintr debug (counter + 1) responses
  | _, response :: responses => some (response, responses)

/-- A call at a position of the file. It moves no more bytes than are asked for, and none from
outside the positions of an `off_t`. -/
def answer (s : Channel) (position : ℤ) (place count : ℕ) : Option (ℤ × Channel) := do
  let (response, responses) ← handleEintr s.debug 0 s.responses
  let s := { s with responses := responses }
  match response with
  | .interrupted | .failed => return (-1, s)
  | .moved n =>
    if position < 0 then return (-1, s)
    let moved := min (min n count) (maxOffset - position).toNat
    return (moved, { s with log := s.log ++ [⟨position, place, moved⟩] })

/-- `pread` into the buffer at a place. -/
def preadAt (offset : Int64) (s : Channel) (place count : ℕ) : Option (ℤ × Channel) :=
  answer s (offset + Int64.ofNat place).toInt place count

/-- `read` goes on from the position of the descriptor. -/
def readNext (s : Channel) (place count : ℕ) : Option (ℤ × Channel) := do
  let (rv, s) ← answer s s.position place count
  return (rv, { s with position := s.position + max rv 0 })

def pwriteAt (offset : Int64) (s : Channel) (place count : ℕ) : Option (ℤ × Channel) := do
  let position := (offset + Int64.ofNat place).toInt
  let (rv, s) ← answer s position place count
  return (rv, { s with length := if rv ≤ 0 then s.length else max s.length (position + rv) })

/-- `write` goes on from the position of the descriptor, or from the end of an appended file. -/
def writeNext (s : Channel) (place count : ℕ) : Option (ℤ × Channel) := do
  let position := if s.append then s.length else s.position
  let (rv, s) ← answer s position place count
  return (rv, if rv ≤ 0 then s else
    { s with position := position + rv, length := max s.length (position + rv) })

/-- The loop of all four functions, with what it has moved. -/
def transferLoop {σ : Type} (call : σ → ℕ → ℕ → Option (ℤ × σ)) (size : ℕ) (s : σ) (bytes : ℕ) :
    Option (ℤ × σ) :=
  match call s bytes (size - bytes) with
  | none => none
  | some (rv, s) =>
    if _stop : rv ≤ 0 then some (if bytes ≠ 0 then (bytes : ℤ) else rv, s)
    else if _more : bytes + rv.toNat < size then transferLoop call size s (bytes + rv.toNat)
    else some ((bytes + rv.toNat : ℕ), s)
termination_by size - bytes
decreasing_by omega

/-- What the three functions with an `int` size do with it. -/
def transferAll (call : Channel → ℕ → ℕ → Option (ℤ × Channel)) (s : Channel) (size : ℤ) :
    Option (ℤ × Channel) :=
  if size < 0 then some (-1, s) else transferLoop call size.toNat s 0

/-- The body of the four checks: the size of the span is cast to `int`. -/
def transferAndCheck (transfer : Channel → ℤ → Option (ℤ × Channel)) (dataSize : UInt64)
    (s : Channel) : Option (Bool × Channel) := do
  let size := toInt dataSize.toNat
  let (rv, s) ← transfer s size
  return (rv = size, s)

namespace Channel

def read (offset : Int64) : Channel → ℤ → Option (ℤ × Channel) := transferAll (preadAt offset)

def readAtCurrentPos : Channel → ℤ → Option (ℤ × Channel) := transferAll readNext

def writeAtCurrentPos : Channel → ℤ → Option (ℤ × Channel) := transferAll writeNext

/-- `File::Write`, whose size is a `mem_size`. -/
def write (offset : Int64) (s : Channel) (size : ℕ) : Option (ℤ × Channel) :=
  if size > 2 ^ 31 - 1 then some (-1, s)
  else if s.append then s.writeAtCurrentPos size
  else transferLoop (pwriteAt offset) size s 0

def readAndCheck (offset : Int64) : UInt64 → Channel → Option (Bool × Channel) :=
  transferAndCheck (read offset)

def readAtCurrentPosAndCheck : UInt64 → Channel → Option (Bool × Channel) :=
  transferAndCheck readAtCurrentPos

def writeAndCheck (offset : Int64) : UInt64 → Channel → Option (Bool × Channel) :=
  transferAndCheck fun s size => s.write offset (size % 2 ^ 64).toNat

def writeAtCurrentPosAndCheck : UInt64 → Channel → Option (Bool × Channel) :=
  transferAndCheck writeAtCurrentPos

/-- Where `write` goes on. -/
def nextWrite (s : Channel) : ℤ := if s.append then s.length else s.position

end Channel

/-- Transfers one behind the other, from a position of the file and the start of the buffer up to
a place in it. -/
def Consecutive (start : ℤ) : ℕ → List Transfer → ℕ → Prop
  | place, [], total => place = total
  | place, t :: ts, total => t.position = start + place ∧ t.place = place ∧
      Consecutive start (place + t.count) ts total

/-- Whatever the operating system does, the check moves bytes between consecutive positions and
places, and where it says so it has moved the whole span. -/
def ChecksWhole (check : UInt64 → Channel → Option (Bool × Channel)) (start : Channel → ℤ)
    (dataSize : UInt64) : Prop :=
  ∀ s done s', check dataSize s = some (done, s') → ∃ transfers total,
    s'.log = s.log ++ transfers ∧ Consecutive (start s) 0 transfers total ∧
      (done = true → total = dataSize.toNat)

/-- An `int` holds the size, or what it makes of it is no count and not the -1 of a failure. -/
def Fits (dataSize : UInt64) : Prop := dataSize.toNat < 2 ^ 31 ∨ toInt dataSize.toNat < -1

section Schedules

theorem transferLoop_eq {σ : Type} {call : σ → ℕ → ℕ → Option (ℤ × σ)} {size : ℕ}
    (loop : σ → ℕ → Option (ℤ × σ)) (hloop : ∀ s bytes, loop s bytes =
      (call s bytes (size - bytes)).bind fun r =>
        if r.1 ≤ 0 then some (if bytes ≠ 0 then (bytes : ℤ) else r.1, r.2)
        else if bytes + r.1.toNat < size then loop r.2 (bytes + r.1.toNat)
        else some ((bytes + r.1.toNat : ℕ), r.2)) (s : σ) (bytes : ℕ) :
    transferLoop call size s bytes = loop s bytes := by
  fun_induction transferLoop call size s bytes with
  | case1 s bytes hnone => rw [hloop, hnone, bind_none]
  | case2 s bytes rv t hcall hstop => rw [hloop, hcall, bind_some, if_pos hstop]
  | case3 s bytes rv t hcall hstop hmore ih =>
    rw [hloop, hcall, bind_some, if_neg hstop, if_pos hmore, ih]
  | case4 s bytes rv t hcall hstop hmore =>
    rw [hloop, hcall, bind_some, if_neg hstop, if_neg hmore]

variable {Path : Type} (os : Schedule) (file : PlatformFile) (offset : ℤ)

/-- `pread` of a system of files, into the buffer. -/
def preadInto (s : System Path × List UInt8) (place count : ℕ) :
    Option (ℤ × System Path × List UInt8) :=
  let read := pread os s.1 file count (offset + place)
  (ArrayWrite.write s.2 place read.2.2).map fun data => (read.2.1, read.1, data)

theorem readLoop_eq (s : System Path × List UInt8) (size bytesRead : ℕ) :
    transferLoop (preadInto os file offset) size s bytesRead =
      (readLoop os s.1 file offset s.2 size bytesRead).map fun r => (r.2.2, r.1, r.2.1) := by
  refine transferLoop_eq (fun s bytes => (readLoop os s.1 file offset s.2 size bytes).map
    fun r => (r.2.2, r.1, r.2.1)) (fun s bytes => ?_) s bytesRead
  rcases hcall : pread os s.1 file (size - bytes) (offset + bytes) with ⟨t, rv, chunk⟩
  rw [readLoop, preadInto, hcall]
  dsimp only
  cases ArrayWrite.write s.2 bytes chunk with
  | none => rfl
  | some data =>
    rw [map_some, bind_some]
    split_ifs <;> rfl

theorem writeLoop_eq (s : System Path) (data : List UInt8) (total bytesWritten : ℕ) :
    transferLoop (fun s place count =>
        some (pwrite os s file (data.drop place) count (offset + place)).swap) total s
        bytesWritten = some (writeLoop os s file offset data total bytesWritten).swap := by
  refine transferLoop_eq (fun s bytes => some (writeLoop os s file offset data total bytes).swap)
    (fun s bytes => ?_) s bytesWritten
  rcases hcall : pwrite os s file (data.drop bytes) (total - bytes) (offset + bytes) with ⟨t, rv⟩
  rw [writeLoop, hcall, bind_some]
  dsimp only [Prod.swap]
  split_ifs <;> rfl

theorem writeAtCurrentPosLoop_eq (s : System Path) (data : List UInt8) (size bytesWritten : ℕ) :
    transferLoop (fun s place count => some (sysWrite os s file (data.drop place) count).swap) size
        s bytesWritten = some (writeAtCurrentPosLoop os s file data size bytesWritten).swap := by
  refine transferLoop_eq (fun s bytes => some (writeAtCurrentPosLoop os s file data size bytes).swap)
    (fun s bytes => ?_) s bytesWritten
  rcases hcall : sysWrite os s file (data.drop bytes) (size - bytes) with ⟨t, rv⟩
  rw [writeAtCurrentPosLoop, hcall, bind_some]
  dsimp only [Prod.swap]
  split_ifs <;> rfl

end Schedules

section Calls

variable {s s' : Channel} {position rv : ℤ} {place count : ℕ}

theorem answer_cases (h : answer s position place count = some (rv, s')) :
    (s'.position = s.position ∧ s'.length = s.length ∧ s'.append = s.append) ∧
      (rv = -1 ∧ s'.log = s.log ∨ 0 ≤ rv ∧ rv ≤ count ∧ 0 ≤ position ∧
        position + rv ≤ max position maxOffset ∧
          s'.log = s.log ++ [⟨position, place, rv.toNat⟩]) := by
  obtain ⟨⟨response, responses⟩, hresponse, h⟩ := bind_eq_some_iff.mp h
  cases response with
  | interrupted =>
    cases h
    exact ⟨⟨rfl, rfl, rfl⟩, .inl ⟨rfl, rfl⟩⟩
  | failed =>
    cases h
    exact ⟨⟨rfl, rfl, rfl⟩, .inl ⟨rfl, rfl⟩⟩
  | moved n =>
    dsimp only at h
    by_cases hposition : position < 0
    · rw [if_pos hposition] at h
      cases h
      exact ⟨⟨rfl, rfl, rfl⟩, .inl ⟨rfl, rfl⟩⟩
    · rw [if_neg hposition] at h
      cases h
      refine ⟨⟨rfl, rfl, rfl⟩, .inr ⟨by omega, by omega, by omega, by omega, ?_⟩⟩
      rw [Int.toNat_natCast]

/-- A call fails, or moves bytes at the next position and leaves the one behind them. -/
def Advances (call : Channel → ℕ → ℕ → Option (ℤ × Channel)) (next : Channel → ℕ → ℤ) : Prop :=
  ∀ s place count rv s', call s place count = some (rv, s') →
    rv = -1 ∧ s'.log = s.log ∨ 0 ≤ rv ∧ rv ≤ count ∧
      s'.log = s.log ++ [⟨next s place, place, rv.toNat⟩] ∧
        next s' (place + rv.toNat) = next s place + rv

theorem toInt_add_ofNat {offset : Int64} {place : ℕ} {rv : ℤ} (hlow : 0 ≤ rv)
    (hposition : 0 ≤ (offset + ofNat place).toInt)
    (hrange : (offset + ofNat place).toInt + rv ≤ max (offset + ofNat place).toInt maxOffset) :
    (offset + ofNat (place + rv.toNat)).toInt = (offset + ofNat place).toInt + rv := by
  have hlast := Int64.toInt_lt (offset + ofNat place)
  rw [maxOffset] at hrange
  rw [Int64.ofNat_add, ← Int64.add_assoc, Int64.toInt_add,
    Int64.toInt_ofNat_of_lt (by omega : rv.toNat < 2 ^ 63), Int.toNat_of_nonneg hlow]
  exact Int.bmod_eq_of_le (by omega) (by omega)

theorem preadAt_advances (offset : Int64) :
    Advances (preadAt offset) fun _ place => (offset + ofNat place).toInt := by
  intro s place count rv s' h
  obtain ⟨-, hfailed | ⟨hlow, hhigh, hposition, hrange, hlog⟩⟩ := answer_cases h
  · exact .inl hfailed
  · exact .inr ⟨hlow, hhigh, hlog, toInt_add_ofNat hlow hposition hrange⟩

theorem readNext_advances : Advances readNext fun s _ => s.position := by
  intro s place count rv s' h
  obtain ⟨⟨rv', t⟩, hanswer, heq⟩ := bind_eq_some_iff.mp h
  cases heq
  obtain ⟨⟨hposition, -⟩, hfailed | ⟨hlow, hhigh, -, -, hlog⟩⟩ := answer_cases hanswer
  · exact .inl hfailed
  · refine .inr ⟨hlow, hhigh, hlog, ?_⟩
    rw [hposition, Int.max_eq_left hlow]

theorem pwriteAt_advances (offset : Int64) :
    Advances (pwriteAt offset) fun _ place => (offset + ofNat place).toInt := by
  intro s place count rv s' h
  obtain ⟨⟨rv', t⟩, hanswer, heq⟩ := bind_eq_some_iff.mp h
  cases heq
  obtain ⟨-, hfailed | ⟨hlow, hhigh, hposition, hrange, hlog⟩⟩ := answer_cases hanswer
  · exact .inl hfailed
  · exact .inr ⟨hlow, hhigh, hlog, toInt_add_ofNat hlow hposition hrange⟩

theorem writeNext_advances : Advances writeNext fun s _ => s.nextWrite := by
  intro s place count rv s' h
  obtain ⟨⟨rv', t⟩, hanswer, heq⟩ := bind_eq_some_iff.mp h
  cases heq
  obtain ⟨⟨hposition, hlength, happend⟩, hfailed | ⟨hlow, hhigh, -, -, hlog⟩⟩ :=
    answer_cases hanswer
  · obtain ⟨rfl, hlog⟩ := hfailed
    exact .inl ⟨rfl, hlog⟩
  · refine .inr ⟨hlow, hhigh, ?_, ?_⟩
    · split <;> exact hlog
    · by_cases hzero : rv ≤ 0
      · rw [if_pos hzero]
        dsimp only [Channel.nextWrite]
        rw [happend, hlength, hposition]
        omega
      · rw [if_neg hzero]
        dsimp only [Channel.nextWrite]
        rw [happend, hlength]
        by_cases hend : s.append
        · rw [if_pos hend, if_pos hend]
          omega
        · rw [if_neg hend, if_neg hend]

end Calls

section Loops

variable {call : Channel → ℕ → ℕ → Option (ℤ × Channel)} {next : Channel → ℕ → ℤ}

theorem Consecutive.unique {start start' : ℤ} {place total total' : ℕ} {ts : List Transfer}
    (h : Consecutive start place ts total) (h' : Consecutive start' place ts total') :
    total = total' := by
  induction ts generalizing place with
  | nil => exact h.symm.trans h'
  | cons t ts ih => exact ih h.2.2 h'.2.2

/-- What the loop moves is consecutive, and it returns how much that is or a failure. -/
theorem transferLoop_consecutive (hcall : Advances call next) {size : ℕ} {start : ℤ}
    {s s' : Channel} {bytes : ℕ} {rv : ℤ} (hnext : next s bytes = start + bytes)
    (h : transferLoop call size s bytes = some (rv, s')) : ∃ transfers total,
      s'.log = s.log ++ transfers ∧ Consecutive start bytes transfers total ∧
        (rv = total ∨ rv = -1) := by
  fun_induction transferLoop call size s bytes with
  | case1 s bytes hnone => cases h
  | case2 s bytes rv t hanswer hstop =>
    cases h
    obtain ⟨hrv, hlog⟩ | ⟨hlow, -, hlog, -⟩ := hcall _ _ _ _ _ hanswer
    · refine ⟨[], bytes, by rw [hlog, List.append_nil], rfl, ?_⟩
      split <;> omega
    · refine ⟨_, bytes + rv.toNat, hlog, ⟨hnext, rfl, rfl⟩, ?_⟩
      split <;> omega
  | case3 s bytes rv t hanswer hstop hmore ih =>
    obtain ⟨hrv, -⟩ | ⟨hlow, -, hlog, hafter⟩ := hcall _ _ _ _ _ hanswer
    · omega
    · obtain ⟨transfers, total, hlog', hconsecutive, hresult⟩ := ih (by omega) h
      refine ⟨⟨next s bytes, bytes, rv.toNat⟩ :: transfers, total, ?_,
        ⟨hnext, rfl, hconsecutive⟩, hresult⟩
      rw [hlog', hlog, List.append_assoc]
      rfl
  | case4 s bytes rv t hanswer hstop hmore =>
    cases h
    obtain ⟨hrv, -⟩ | ⟨hlow, -, hlog, -⟩ := hcall _ _ _ _ _ hanswer
    · omega
    · exact ⟨_, bytes + rv.toNat, hlog, ⟨hnext, rfl, rfl⟩, .inl rfl⟩

theorem transferLoop_reaches {size : ℤ} (hlow : 0 ≤ size) {s s' : Channel}
    (h : call s 0 size.toNat = some ((size.toNat : ℤ), s')) :
    transferLoop call size.toNat s 0 = some (size, s') := by
  rw [transferLoop, Nat.sub_zero, h]
  dsimp only
  by_cases hzero : size ≤ 0
  · rw [dif_pos (by omega), if_neg (by simp)]
    exact congrArg (fun rv => some (rv, s')) (by omega)
  · rw [dif_neg (by omega), dif_neg (by omega)]
    exact congrArg (fun rv => some (rv, s')) (by omega)

end Loops

section Checks

variable {ι : Type}

/-- Functions with an `int` size that move bytes one behind the other, and can move as many as they
are asked for. -/
structure Moves (transfer : ι → Channel → ℤ → Option (ℤ × Channel)) (start : ι → Channel → ℤ) :
    Prop where
  consecutive : ∀ i s size rv s', -2 ^ 31 ≤ size → size < 2 ^ 31 →
    transfer i s size = some (rv, s') → ∃ transfers total, s'.log = s.log ++ transfers ∧
      Consecutive (start i s) 0 transfers total ∧ (rv = total ∨ rv = -1)
  refuses : ∀ i s size, -2 ^ 31 ≤ size → size < 0 → transfer i s size = some (-1, s)
  reaches : ∀ size, 0 ≤ size → size < 2 ^ 31 → ∃ i s s', transfer i s size = some (size, s')

theorem toInt_dataSize (dataSize : UInt64) : -2 ^ 31 ≤ toInt dataSize.toNat ∧
    toInt dataSize.toNat < 2 ^ 31 ∧
      (dataSize.toNat < 2 ^ 31 → toInt dataSize.toNat = dataSize.toNat) := by
  have hlow := Int.le_bmod (x := dataSize.toNat) (m := 2 ^ 32) (by decide)
  have hhigh := Int.bmod_lt (x := dataSize.toNat) (m := 2 ^ 32) (by decide)
  exact ⟨hlow, hhigh, fun hsmall => Int.bmod_eq_of_le (by omega) (by omega)⟩

theorem Moves.allWhole_iff {transfer : ι → Channel → ℤ → Option (ℤ × Channel)}
    {start : ι → Channel → ℤ} (h : Moves transfer start) (dataSize : UInt64) :
    (∀ i, ChecksWhole (transferAndCheck (transfer i)) (start i) dataSize) ↔ Fits dataSize := by
  obtain ⟨hlow, hhigh, hsmall⟩ := toInt_dataSize dataSize
  have hcheck {i : ι} {s s' : Channel} {rv : ℤ}
      (hrun : transfer i s (toInt dataSize.toNat) = some (rv, s')) :
      transferAndCheck (transfer i) dataSize s = some (decide (rv = toInt dataSize.toNat), s') := by
    rw [transferAndCheck, hrun]
    rfl
  constructor
  · intro hwhole
    by_contra hnot
    rw [Fits, not_or] at hnot
    by_cases hnegative : toInt dataSize.toNat < 0
    · obtain ⟨i, s, -⟩ := h.reaches 0 (by decide) (by decide)
      obtain ⟨transfers, total, hlog, hconsecutive, hdone⟩ :=
        hwhole i s _ s (hcheck (h.refuses i s _ hlow hnegative))
      have hnone : transfers = [] := by simpa using hlog
      subst hnone
      have htotal : 0 = total := hconsecutive
      have hwhole := hdone (decide_eq_true (by omega))
      omega
    · obtain ⟨i, s, s', hrun⟩ := h.reaches (toInt dataSize.toNat) (by omega) hhigh
      obtain ⟨transfers, total, hlog, hconsecutive, hdone⟩ :=
        hwhole i s _ s' (hcheck hrun)
      obtain ⟨transfers', total', hlog', hconsecutive', hrv⟩ :=
        h.consecutive i s _ _ s' hlow hhigh hrun
      obtain rfl : transfers = transfers' := List.append_cancel_left (hlog.symm.trans hlog')
      have htotal := hconsecutive.unique hconsecutive'
      have hwhole := hdone (by simp)
      omega
  · intro hfits i s done s' hrun
    obtain ⟨⟨rv, t⟩, htransfer, heq⟩ := bind_eq_some_iff.mp hrun
    cases heq
    obtain ⟨transfers, total, hlog, hconsecutive, hrv⟩ := h.consecutive i s _ rv s' hlow hhigh htransfer
    refine ⟨transfers, total, hlog, hconsecutive, fun hdone => ?_⟩
    have hsize : rv = toInt dataSize.toNat := of_decide_eq_true hdone
    obtain hfits | hfits := hfits
    · have hvalue := hsmall hfits
      omega
    · omega

theorem moves_transferAll {call : ι → Channel → ℕ → ℕ → Option (ℤ × Channel)}
    {next : ι → Channel → ℕ → ℤ} {start : ι → Channel → ℤ}
    (hcall : ∀ i, Advances (call i) (next i)) (hstart : ∀ i s, next i s 0 = start i s)
    (hreaches : ∀ n : ℕ, n < 2 ^ 31 → ∃ i s s', call i s 0 n = some ((n : ℤ), s')) :
    Moves (fun i => transferAll (call i)) start where
  consecutive i s size rv s' _ _ h := by
    rw [transferAll] at h
    by_cases hnegative : size < 0
    · rw [if_pos hnegative] at h
      cases h
      exact ⟨[], 0, (List.append_nil _).symm, rfl, .inr rfl⟩
    · rw [if_neg hnegative] at h
      exact transferLoop_consecutive (hcall i) (by rw [hstart]; simp) h
  refuses i s size _ hnegative := by rw [transferAll, if_pos hnegative]
  reaches size hlow hhigh := by
    obtain ⟨i, s, s', hmoved⟩ := hreaches size.toNat (by omega)
    refine ⟨i, s, s', ?_⟩
    rw [transferAll, if_neg (by omega)]
    exact transferLoop_reaches hlow hmoved

def willing (n : ℕ) : Channel where
  position := 0
  length := 0
  append := false
  debug := false
  responses := [.moved n]
  log := []

theorem answer_willing {n : ℕ} (hn : n < 2 ^ 31) : ∃ s', answer (willing n) 0 0 n =
    some ((n : ℤ), s') := by
  have hmoved : min (min n n) (maxOffset - 0).toNat = n := by
    rw [maxOffset]
    omega
  have hanswer : answer (willing n) 0 0 n = some (((min (min n n) (maxOffset - 0).toNat : ℕ) : ℤ),
      { willing n with
        responses := [], log := [⟨0, 0, min (min n n) (maxOffset - 0).toNat⟩] }) := rfl
  rw [hmoved] at hanswer
  exact ⟨_, hanswer⟩

theorem bind_willing {n : ℕ} (hn : n < 2 ^ 31) (f : ℤ × Channel → Option (ℤ × Channel))
    (hf : ∀ rv s, ∃ s', f (rv, s) = some (rv, s')) :
    ∃ s', (answer (willing n) 0 0 n).bind f = some ((n : ℤ), s') := by
  obtain ⟨s, hanswer⟩ := answer_willing hn
  rw [hanswer]
  exact hf n s

theorem pwriteAt_willing {n : ℕ} (hn : n < 2 ^ 31) :
    ∃ s', pwriteAt 0 (willing n) 0 n = some ((n : ℤ), s') := by
  rw [pwriteAt]
  refine bind_willing hn _ ?_
  exact fun rv s => ⟨_, rfl⟩

theorem moves_read : Moves Channel.read fun offset _ => offset.toInt := by
  refine moves_transferAll preadAt_advances (fun offset _ => by simp) fun n hn => ?_
  exact ⟨0, willing n, answer_willing hn⟩

theorem moves_readAtCurrentPos :
    Moves (fun _ : Unit => Channel.readAtCurrentPos) fun _ => Channel.position := by
  refine moves_transferAll (fun _ => readNext_advances) (fun _ _ => rfl) fun n hn => ?_
  refine ⟨(), willing n, ?_⟩
  rw [readNext]
  refine bind_willing hn _ ?_
  exact fun rv s => ⟨_, rfl⟩

theorem moves_writeAtCurrentPos :
    Moves (fun _ : Unit => Channel.writeAtCurrentPos) fun _ => Channel.nextWrite := by
  refine moves_transferAll (fun _ => writeNext_advances) (fun _ _ => rfl) fun n hn => ?_
  refine ⟨(), willing n, ?_⟩
  rw [writeNext]
  refine bind_willing hn _ ?_
  exact fun rv s => ⟨_, rfl⟩

/-- `Write` has its own bound on the size, and leaves an appended file to `WriteAtCurrentPos`. -/
theorem moves_write : Moves (fun offset s size => Channel.write offset s (size % 2 ^ 64).toNat)
    fun offset s => if s.append then s.length else offset.toInt where
  consecutive offset s size rv s' hlow hhigh h := by
    rw [Channel.write] at h
    by_cases hnegative : size < 0
    · rw [if_pos (by omega)] at h
      cases h
      exact ⟨[], 0, (List.append_nil _).symm, rfl, .inr rfl⟩
    · have hsize : (size % 2 ^ 64).toNat = size.toNat := by omega
      rw [if_neg (by omega), hsize] at h
      by_cases happend : s.append
      · rw [if_pos happend] at h
        have hmoves := moves_writeAtCurrentPos.consecutive () s _ rv s' (by omega) (by omega) h
        rw [Channel.nextWrite, if_pos happend] at hmoves
        rw [if_pos happend]
        exact hmoves
      · rw [if_neg happend] at h ⊢
        exact transferLoop_consecutive (pwriteAt_advances offset) (by simp) h
  refuses offset s size hlow hnegative := by
    rw [Channel.write, if_pos (by omega)]
  reaches size hlow hhigh := by
    obtain ⟨s', hmoved⟩ := pwriteAt_willing (by omega : size.toNat < 2 ^ 31)
    refine ⟨0, willing size.toNat, s', ?_⟩
    have hsize : (size % 2 ^ 64).toNat = size.toNat := by omega
    rw [Channel.write, if_neg (by omega), hsize, if_neg (by simp [willing])]
    exact transferLoop_reaches hlow hmoved

/-- The checks mean what they say exactly where the size of the span fits. -/
theorem checksWhole_iff (dataSize : UInt64) :
    ((∀ offset, ChecksWhole (Channel.readAndCheck offset) (fun _ => offset.toInt) dataSize) ↔
      Fits dataSize) ∧
    (ChecksWhole Channel.readAtCurrentPosAndCheck Channel.position dataSize ↔ Fits dataSize) ∧
    ((∀ offset, ChecksWhole (Channel.writeAndCheck offset)
      (fun s => if s.append then s.length else offset.toInt) dataSize) ↔ Fits dataSize) ∧
    (ChecksWhole Channel.writeAtCurrentPosAndCheck Channel.nextWrite dataSize ↔ Fits dataSize) := by
  refine ⟨moves_read.allWhole_iff dataSize, ?_, moves_write.allWhole_iff dataSize, ?_⟩
  · rw [← moves_readAtCurrentPos.allWhole_iff dataSize]
    exact (forall_const Unit).symm
  · rw [← moves_writeAtCurrentPos.allWhole_iff dataSize]
    exact (forall_const Unit).symm

/-- The size of this span is cast to -1, which is what `Read` returns for it. -/
theorem not_checksWhole : ¬∀ (dataSize : UInt64) (offset : Int64),
    ChecksWhole (Channel.readAndCheck offset) (fun _ => offset.toInt) dataSize := by
  intro h
  have hrun : Channel.readAndCheck 0 4294967295 (willing 0) = some (true, willing 0) := by decide
  obtain ⟨transfers, total, hlog, hconsecutive, hdone⟩ := h 4294967295 0 _ _ _ hrun
  obtain rfl : transfers = [] := by simpa using hlog
  have htotal : 0 = total := hconsecutive
  have hwhole : total = 4294967295 := hdone rfl
  omega

end Checks

end Equilibrium.File
