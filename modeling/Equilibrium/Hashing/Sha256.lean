import Mathlib.Data.UInt
import Mathlib.Tactic.IntervalCases
import Equilibrium.Library.ArrayWrite
import Equilibrium.Library.BlockStream

/-! SHA-256 of `base/hashing/sha256.cc`. An access outside the data or the buffer gives `none`. -/

namespace Equilibrium.Sha256

open Library.ArrayWrite Library.BlockStream Nat
open List (append_assoc length_append length_drop)
open UInt64 (ofNat)

def kK : List UInt32 :=
  [0x428a2f98, 0x71374491, 0xb5c0fbcf, 0xe9b5dba5, 0x3956c25b, 0x59f111f1, 0x923f82a4, 0xab1c5ed5,
   0xd807aa98, 0x12835b01, 0x243185be, 0x550c7dc3, 0x72be5d74, 0x80deb1fe, 0x9bdc06a7, 0xc19bf174,
   0xe49b69c1, 0xefbe4786, 0x0fc19dc6, 0x240ca1cc, 0x2de92c6f, 0x4a7484aa, 0x5cb0a9dc, 0x76f988da,
   0x983e5152, 0xa831c66d, 0xb00327c8, 0xbf597fc7, 0xc6e00bf3, 0xd5a79147, 0x06ca6351, 0x14292967,
   0x27b70a85, 0x2e1b2138, 0x4d2c6dfc, 0x53380d13, 0x650a7354, 0x766a0abb, 0x81c2c92e, 0x92722c85,
   0xa2bfe8a1, 0xa81a664b, 0xc24b8b70, 0xc76c51a3, 0xd192e819, 0xd6990624, 0xf40e3585, 0x106aa070,
   0x19a4c116, 0x1e376c08, 0x2748774c, 0x34b0bcb5, 0x391c0cb3, 0x4ed8aa4a, 0x5b9cca4f, 0x682e6ff3,
   0x748f82ee, 0x78a5636f, 0x84c87814, 0x8cc70208, 0x90befffa, 0xa4506ceb, 0xbef9a3f7, 0xc67178f2]

def rotr (x n : UInt32) : UInt32 := (x >>> n) ||| (x <<< (32 - n))

def ch (x y z : UInt32) : UInt32 := (x &&& y) ^^^ (~~~x &&& z)

def maj (x y z : UInt32) : UInt32 := (x &&& y) ^^^ (x &&& z) ^^^ (y &&& z)

def Sigma0 (x : UInt32) : UInt32 := rotr x 2 ^^^ rotr x 13 ^^^ rotr x 22

def Sigma1 (x : UInt32) : UInt32 := rotr x 6 ^^^ rotr x 11 ^^^ rotr x 25

def sigma0 (x : UInt32) : UInt32 := rotr x 7 ^^^ rotr x 18 ^^^ (x >>> 3)

def sigma1 (x : UInt32) : UInt32 := rotr x 17 ^^^ rotr x 19 ^^^ (x >>> 10)

/-- `u32 state[8]` -/
structure State where
  a : UInt32
  b : UInt32
  c : UInt32
  d : UInt32
  e : UInt32
  f : UInt32
  g : UInt32
  h : UInt32
  deriving DecidableEq

def State.words (s : State) : List UInt32 := [s.a, s.b, s.c, s.d, s.e, s.f, s.g, s.h]

structure Sha256Ctx where
  state : State
  count : UInt64
  buffer : List UInt8

def State.initial : State :=
  ⟨0x6a09e667, 0xbb67ae85, 0x3c6ef372, 0xa54ff53a, 0x510e527f, 0x9b05688c, 0x1f83d9ab, 0x5be0cd19⟩

/-- The constructor, over the memory of the buffer. -/
def Sha256Ctx.new (memory : Vector UInt8 64) : Sha256Ctx := ⟨.initial, 0, memory.toList⟩

def blockWord (block : List UInt8) (i : ℕ) : UInt32 :=
  let byte := fun j => (block.getD (i * 4 + j) 0).toUInt32
  (byte 0 <<< 24) ||| (byte 1 <<< 16) ||| (byte 2 <<< 8) ||| byte 3

/-- `w[i]` from the words before it. -/
def nextWord (w : List UInt32) (i : ℕ) : UInt32 :=
  let at' := fun j => w.getD (i - j) 0
  sigma1 (at' 2) + at' 7 + sigma0 (at' 15) + at' 16

def schedule (block : List UInt8) : List UInt32 :=
  (List.range' 16 48).foldl (fun w i => w ++ [nextWord w i]) ((List.range 16).map (blockWord block))

def round (s : State) (k w : UInt32) : State :=
  let t1 := s.h + Sigma1 s.e + ch s.e s.f s.g + k + w
  let t2 := Sigma0 s.a + maj s.a s.b s.c
  ⟨t1 + t2, s.a, s.b, s.c, s.d + t1, s.e, s.f, s.g⟩

/-- `Transform` of a block of 64 bytes -/
def transform (s : State) (block : List UInt8) : State :=
  let r := (kK.zip (schedule block)).foldl (fun r (k, w) => round r k w) s
  ⟨s.a + r.a, s.b + r.b, s.c + r.c, s.d + r.d, s.e + r.e, s.f + r.f, s.g + r.g, s.h + r.h⟩

/-- The loop over the blocks of the data; the bound of the rounds is never met. -/
def transformLoop (data : List UInt8) : ℕ → ℕ → State → Option (ℕ × State)
  | 0, _, _ => none
  | rounds + 1, i, state =>
    if (i + 64) % 2 ^ 64 ≤ data.length then do
      let block ← read data i 64
      transformLoop data rounds ((i + 64) % 2 ^ 64) (transform state block)
    else some (i, state)

/-- `Update` from the index behind the block that the buffer had a part of. -/
def updateBlocks (ctx : Sha256Ctx) (data : List UInt8) (i : ℕ) : Option Sha256Ctx := do
  let (i, state) ← transformLoop data (data.length / 64 + 1) i ctx.state
  if i < data.length then do
    let buffer ← write ctx.buffer 0 (data.drop i)
    return { ctx with state, buffer }
  else return { ctx with state }

def update (ctx : Sha256Ctx) (data : List UInt8) : Option Sha256Ctx :=
  let index := (ctx.count % 64).toNat
  let ctx := { ctx with count := ctx.count + UInt64.ofNat data.length }
  if index ≠ 0 then
    let part := 64 - index
    if data.length ≥ part then do
      let buffer ← write ctx.buffer index (data.take part)
      updateBlocks { ctx with state := transform ctx.state buffer, buffer } data part
    else do
      let buffer ← write ctx.buffer index data
      return { ctx with buffer }
  else updateBlocks ctx data 0

/-- `u8 padding[128]` -/
def padding : List UInt8 := 0x80 :: List.replicate 127 0

def bitsBe (bits : UInt64) : List UInt8 :=
  (List.range 8).map fun i => (bits >>> (56 - UInt64.ofNat i * 8)).toUInt8

def wordBytes (w : UInt32) : List UInt8 :=
  [(w >>> 24).toUInt8, (w >>> 16).toUInt8, (w >>> 8).toUInt8, w.toUInt8]

def State.bytes (s : State) : List UInt8 := s.words.flatMap wordBytes

def finalize (ctx : Sha256Ctx) : Option (List UInt8) := do
  let bits := ctx.count * 8
  let index := (ctx.count % 64).toNat
  let pad := (if index < 56 then 56 - index else 120 - index) % 256
  let ctx ← update ctx (padding.take pad)
  let ctx ← update ctx (bitsBe bits)
  return ctx.state.bytes

/-! The padding of FIPS 180-4. -/

def zeros (length : ℕ) : ℕ := (119 - length % 64) % 64

/-- The number of bits as 64 bits, the most significant byte first. -/
def lengthBytes (bits : ℕ) : List UInt8 := (List.range 8).map fun i => UInt8.ofNat (bits >>> (56 - i * 8))

def padded (message : List UInt8) : List UInt8 :=
  message ++ (0x80 :: List.replicate (zeros message.length) 0 ++ lengthBytes (8 * message.length))

def chained (message : List UInt8) : State := (blocks 64 message).foldl transform .initial

/-- The bytes of one array, which takes less than half of the address space. -/
abbrev Piece := { data : List UInt8 // data.length < 2 ^ 63 }

section Update

variable {data : List UInt8} {i : ℕ} {s : State}

theorem transformLoop_eq (hlength : data.length < 2 ^ 63) {rounds : ℕ} (hi : i ≤ data.length)
    (hrounds : (data.length - i) / 64 < rounds) :
    transformLoop data rounds i s = some (data.length - (data.length - i) % 64,
      (blocks 64 (data.drop i)).foldl transform s) := by
  induction rounds generalizing i s with
  | zero => omega
  | succ rounds ih =>
    have hwrap : (i + 64) % 2 ^ 64 = i + 64 := mod_eq_of_lt (by omega)
    rw [transformLoop, hwrap]
    by_cases hwhole : i + 64 ≤ data.length
    case pos =>
      have hdrop : 64 ≤ (data.drop i).length := by
        rw [length_drop]
        omega
      rw [if_pos hwhole, read_eq hwhole, blocks_of_le hdrop, List.drop_drop, List.foldl_cons]
      change transformLoop data rounds (i + 64) _ = _
      rw [ih hwhole (by omega)]
      congr 2
      omega
    case neg =>
      have hdrop : (data.drop i).length < 64 := by
        rw [length_drop]
        omega
      rw [if_neg hwhole, blocks_of_lt hdrop, mod_eq_of_lt (by omega), Nat.sub_sub_self hi]
      rfl

/-- What the context holds of a message. -/
structure Represents (ctx : Sha256Ctx) (message : List UInt8) : Prop where
  state : ctx.state = chained message
  count : ctx.count = UInt64.ofNat message.length
  buffer : ctx.buffer.take (message.length % 64) = leftover 64 message
  capacity : ctx.buffer.length = 64

theorem represents_new (memory : Vector UInt8 64) : Represents (.new memory) [] where
  state := by rw [chained, blocks_of_lt (by decide)]; rfl
  count := rfl
  buffer := by simp [leftover]
  capacity := memory.size_toArray

theorem index_eq {ctx : Sha256Ctx} {message : List UInt8} (h : Represents ctx message) :
    (ctx.count % 64).toNat = message.length % 64 := by
  rw [h.count, UInt64.toNat_mod, UInt64.toNat_ofNat]
  exact mod_mod_of_dvd _ (by decide)

theorem updateBlocks_spec (ctx : Sha256Ctx) (hlength : data.length < 2 ^ 63)
    (hcapacity : ctx.buffer.length = 64) (hi : i ≤ data.length) : ∃ buffer,
      updateBlocks ctx data i = some { ctx with
        state := (blocks 64 (data.drop i)).foldl transform ctx.state, buffer := buffer } ∧
      buffer.take ((data.length - i) % 64) = leftover 64 (data.drop i) ∧ buffer.length = 64 := by
  have hrest : data.drop (data.length - (data.length - i) % 64) = leftover 64 (data.drop i) := by
    rw [leftover, List.drop_drop, length_drop]
    congr 1
    omega
  have hrestLength : (leftover 64 (data.drop i)).length = (data.length - i) % 64 := by
    rw [length_leftover, length_drop]
  rw [updateBlocks, transformLoop_eq hlength hi (lt_succ_of_le (Nat.div_le_div_right (by omega)))]
  change ∃ buffer, (if data.length - (data.length - i) % 64 < data.length then _ else _) = _ ∧ _
  by_cases hmore : data.length - (data.length - i) % 64 < data.length
  case pos =>
    have hroom : 0 + (leftover 64 (data.drop i)).length ≤ ctx.buffer.length := by omega
    obtain ⟨buffer, hwrite⟩ := exists_write hroom
    refine ⟨buffer, ?_, ?_, (length_write hwrite).trans hcapacity⟩
    · rw [if_pos hmore, hrest, hwrite]
      rfl
    · have htake := take_write hwrite
      rw [Nat.zero_add, hrestLength] at htake
      exact htake
  case neg =>
    have hnone : (data.length - i) % 64 = 0 := by omega
    refine ⟨ctx.buffer, if_neg hmore, ?_, hcapacity⟩
    rw [hnone, List.take_zero, List.eq_nil_of_length_eq_zero (hrestLength.trans hnone)]

variable {ctx : Sha256Ctx} {message : List UInt8}

section

variable (h : Represents ctx message)
include h

theorem Represents.count_append :
    ctx.count + ofNat data.length = ofNat (message ++ data).length := by
  rw [h.count, length_append, UInt64.ofNat_add]

theorem Represents.chained_append : chained (message ++ data) =
    (blocks 64 (leftover 64 message ++ data)).foldl transform ctx.state := by
  rw [chained, blocks_append, List.foldl_append, h.state, chained]

theorem update_full (hlength : data.length < 2 ^ 63) (hindex : message.length % 64 ≠ 0)
    (hfull : data.length ≥ 64 - message.length % 64) :
    ∃ ctx', update ctx data = some ctx' ∧ Represents ctx' (message ++ data) := by
  have hcapacity := h.capacity
  have htake : (data.take (64 - message.length % 64)).length = 64 - message.length % 64 := by
    rw [List.length_take]
    omega
  have hroom : message.length % 64 + (data.take (64 - message.length % 64)).length ≤
      ctx.buffer.length := by omega
  obtain ⟨block, hwrite⟩ := exists_write hroom
  have hblockLength : block.length = 64 := (length_write hwrite).trans hcapacity
  have hblock : block = leftover 64 message ++ data.take (64 - message.length % 64) := by
    have hfront := take_write hwrite
    rw [htake, h.buffer, List.take_of_length_le (by omega)] at hfront
    exact hfront
  have hsplit : leftover 64 message ++ data = block ++ data.drop (64 - message.length % 64) := by
    rw [hblock, append_assoc, List.take_append_drop]
  have hwhole : 64 ≤ (block ++ data.drop (64 - message.length % 64)).length := by
    rw [length_append]
    omega
  obtain ⟨buffer, hrun, hheld, hlength'⟩ := updateBlocks_spec ⟨transform ctx.state block,
    ctx.count + ofNat data.length, block⟩ hlength hblockLength hfull
  have hupdate : update ctx data = updateBlocks ⟨transform ctx.state block,
      ctx.count + ofNat data.length, block⟩ data (64 - message.length % 64) := by
    rw [update]
    rw [index_eq h, if_pos hindex, if_pos hfull, hwrite]
    rfl
  refine ⟨_, hupdate.trans hrun, ⟨?_, h.count_append, ?_, hlength'⟩⟩
  · rw [h.chained_append, hsplit, blocks_of_le hwhole, List.take_left' hblockLength,
      List.drop_left' hblockLength]
    rfl
  · have hmod : (message ++ data).length % 64 =
        (data.length - (64 - message.length % 64)) % 64 := by
      rw [length_append]
      omega
    rw [hmod, leftover_append, hsplit, leftover_of_le hwhole, List.drop_left' hblockLength]
    exact hheld

theorem update_short (hindex : message.length % 64 ≠ 0)
    (hshort : data.length < 64 - message.length % 64) :
    ∃ ctx', update ctx data = some ctx' ∧ Represents ctx' (message ++ data) := by
  have hcapacity := h.capacity
  have hblock : (leftover 64 message ++ data).length < 64 := by
    rw [length_append, length_leftover]
    omega
  have hroom : message.length % 64 + data.length ≤ ctx.buffer.length := by omega
  obtain ⟨buffer, hwrite⟩ := exists_write hroom
  have hupdate : update ctx data = some ⟨ctx.state, ctx.count + ofNat data.length, buffer⟩ := by
    rw [update]
    rw [index_eq h, if_pos hindex, if_neg (by omega), hwrite]
    rfl
  refine ⟨_, hupdate, ⟨?_, h.count_append, ?_, (length_write hwrite).trans hcapacity⟩⟩
  · rw [h.chained_append, blocks_of_lt hblock]
    rfl
  · have hmod : (message ++ data).length % 64 = message.length % 64 + data.length := by
      rw [length_append]
      omega
    rw [hmod, leftover_append, leftover_of_lt hblock]
    exact (take_write hwrite).trans (congrArg (· ++ data) h.buffer)

theorem update_aligned (hlength : data.length < 2 ^ 63) (hindex : message.length % 64 = 0) :
    ∃ ctx', update ctx data = some ctx' ∧ Represents ctx' (message ++ data) := by
  have hempty : leftover 64 message = [] :=
    List.eq_nil_of_length_eq_zero ((length_leftover message).trans hindex)
  obtain ⟨buffer, hrun, hheld, hlength'⟩ := updateBlocks_spec ⟨ctx.state,
    ctx.count + ofNat data.length, ctx.buffer⟩ hlength h.capacity (Nat.zero_le _)
  have hupdate : update ctx data =
      updateBlocks ⟨ctx.state, ctx.count + ofNat data.length, ctx.buffer⟩ data 0 := by
    rw [update]
    rw [index_eq h, if_neg (not_not.mpr hindex)]
  refine ⟨_, hupdate.trans hrun, ⟨?_, h.count_append, ?_, hlength'⟩⟩
  · rw [h.chained_append, hempty]
    rfl
  · have hmod : (message ++ data).length % 64 = (data.length - 0) % 64 := by
      rw [length_append]
      omega
    rw [hmod, leftover_append, hempty]
    exact hheld

theorem update_spec (hlength : data.length < 2 ^ 63) :
    ∃ ctx', update ctx data = some ctx' ∧ Represents ctx' (message ++ data) := by
  by_cases hindex : message.length % 64 = 0
  case pos => exact update_aligned h hlength hindex
  case neg =>
    by_cases hfull : data.length ≥ 64 - message.length % 64
    case pos => exact update_full h hlength hindex hfull
    case neg => exact update_short h hindex (by omega)

theorem updates_spec (pieces : List Piece) :
    ∃ ctx', pieces.foldlM (fun ctx piece => update ctx piece.val) ctx = some ctx' ∧
      Represents ctx' (message ++ pieces.flatMap Subtype.val) := by
  induction pieces generalizing ctx message with
  | nil => exact ⟨ctx, rfl, by rwa [List.flatMap_nil, List.append_nil]⟩
  | cons piece pieces ih =>
    obtain ⟨ctx₁, hrun₁, h₁⟩ := update_spec h piece.property
    obtain ⟨ctx', hrun, h'⟩ := ih h₁
    refine ⟨ctx', ?_, ?_⟩
    · rw [List.foldlM_cons, hrun₁]
      exact hrun
    · rw [List.flatMap_cons, ← append_assoc]
      exact h'

end

end Update

section Finalize

variable {ctx : Sha256Ctx} {message : List UInt8}

theorem padding_eq (length : ℕ) :
    padding.take ((if length % 64 < 56 then 56 - length % 64 else 120 - length % 64) % 256) =
      0x80 :: List.replicate (zeros length) 0 := by
  have hpad : (if length % 64 < 56 then 56 - length % 64 else 120 - length % 64) % 256 =
      zeros length + 1 := by
    rw [zeros]
    split
    · omega
    · omega
  have hzeros : zeros length < 64 := mod_lt _ (by decide)
  rw [hpad, padding, List.take_succ_cons, List.take_replicate, Nat.min_eq_left (by omega)]

theorem bitsBe_eq (length : ℕ) : bitsBe (ofNat length * 8) = lengthBytes (8 * length) := by
  rw [bitsBe, lengthBytes]
  refine List.map_congr_left fun i hi => UInt8.toNat_inj.mp ?_
  have hi : i < 8 := List.mem_range.mp hi
  have hshift : ((56 : UInt64) - ofNat i * 8).toNat = 56 - i * 8 := by
    interval_cases i <;> rfl
  rw [UInt64.toNat_toUInt8, UInt64.toNat_shiftRight, hshift, UInt64.toNat_mul, UInt64.toNat_ofNat',
    UInt8.toNat_ofNat', mod_eq_of_lt (by omega : 56 - i * 8 < 64), shiftRight_eq_div_pow,
    shiftRight_eq_div_pow]
  change length % 2 ^ 64 * 8 % 2 ^ 64 / 2 ^ (56 - i * 8) % 256 = 8 * length / 2 ^ (56 - i * 8) % 256
  interval_cases i <;> omega

theorem finalize_spec (h : Represents ctx message) :
    finalize ctx = some (chained (padded message)).bytes := by
  have hzeros : zeros message.length < 64 := mod_lt _ (by decide)
  have hpad : ((0x80 : UInt8) :: List.replicate (zeros message.length) 0).length < 2 ^ 63 := by
    rw [List.length_cons, List.length_replicate]
    omega
  have hbits : (lengthBytes (8 * message.length)).length < 2 ^ 63 := by
    rw [lengthBytes, List.length_map, List.length_range]
    decide
  obtain ⟨ctx₁, hrun₁, h₁⟩ := update_spec h hpad
  obtain ⟨ctx₂, hrun₂, h₂⟩ := update_spec h₁ hbits
  rw [finalize, index_eq h, padding_eq, hrun₁, h.count, bitsBe_eq]
  change (update ctx₁ _ >>= fun ctx => some ctx.state.bytes) = _
  rw [hrun₂, padded, ← append_assoc, ← h₂.state]
  rfl

end Finalize

/-- However the message is split, the hash is that of its padded blocks. -/
theorem finalize_updates (memory : Vector UInt8 64) (pieces : List Piece) :
    (pieces.foldlM (fun ctx piece => update ctx piece.val) (.new memory) >>= finalize) =
      some (((blocks 64 (padded (pieces.flatMap Subtype.val))).foldl transform .initial).bytes) := by
  obtain ⟨ctx, hrun, h⟩ := updates_spec (represents_new memory) pieces
  rw [hrun]
  exact finalize_spec h

/-- The digest of `abc`. -/
example : (update (.new (Vector.replicate 64 7)) [0x61, 0x62, 0x63] >>= finalize).map (·.take 4) =
    some [0xba, 0x78, 0x16, 0xbf] := by decide +kernel

end Equilibrium.Sha256
