import Equilibrium.Library.ShiftRegister

/-! The checksums of `base/hashing/crc.h`. The processor's instructions take a byte, or eight
bytes in little-endian order, into the reflected remainder of the Castagnoli polynomial. -/

namespace Equilibrium.Crc

open Library.ShiftRegister

abbrev Byte := BitVec 8

abbrev U32 := BitVec 32

/-- The loop of `CRC32C_SW` over the bytes and over the bits of each -/
def crcLoop (polynomial : U32) : List Byte → U32 → U32
  | [], crc => crc
  | b :: data, crc => crcLoop polynomial data (shifts polynomial 8 (crc ^^^ b.setWidth 32))

def castagnoli : U32 := 0x82f63b78

def crc32cSW (data : List Byte) (polynomial prevCrc : U32) : U32 :=
  ~~~ crcLoop polynomial data (~~~ prevCrc)

/-- `_mm_crc32_u8` and `__crc32cb` -/
def crc32Byte (crc : U32) (b : Byte) : U32 := feed castagnoli crc b

/-- `__crc32cd` -/
def crc32Chunk (crc : U32) (chunk : BitVec 64) : U32 :=
  (feed (castagnoli.setWidth 64) (crc.setWidth 64) chunk).setWidth 32

def byteLoop : List Byte → U32 → U32
  | [], crc => crc
  | b :: data, crc => byteLoop data (crc32Byte crc b)

def chunkLoop : List Byte → U32 → U32
  | b₀ :: b₁ :: b₂ :: b₃ :: b₄ :: b₅ :: b₆ :: b₇ :: data, crc =>
      chunkLoop data (crc32Chunk crc (word 64 [b₀, b₁, b₂, b₃, b₄, b₅, b₆, b₇]))
  | data, crc => byteLoop data crc

/-- What `CRC32C` is compiled to. -/
inductive Build where
  | byteInstruction
  | chunkInstruction
  | fallback
  deriving DecidableEq

/-- The fallback gives the previous value where `CRC32C_SW` takes its polynomial, and leaves
the previous value at its default. -/
def crc32c (build : Build) (data : List Byte) (previousCrc32 : U32) : U32 :=
  match build with
  | .byteInstruction => ~~~ byteLoop data (~~~ previousCrc32)
  | .chunkInstruction => ~~~ chunkLoop data (~~~ previousCrc32)
  | .fallback => crc32cSW data previousCrc32 0xFFFFFFFF

/-- A build gives the checksum of the byte instruction, and goes on from what it gave. -/
structure Sound (build : Build) (previousCrc32 : U32) : Prop where
  agrees : ∀ data, crc32c build data previousCrc32 = crc32c .byteInstruction data previousCrc32
  continues : ∀ a c, crc32c build c (crc32c build a previousCrc32) =
    crc32c build (a ++ c) previousCrc32

section Loops

variable {data : List Byte} {crc : U32}

theorem byteLoop_eq_foldl : byteLoop data crc = data.foldl crc32Byte crc := by
  induction data generalizing crc with
  | nil => rfl
  | cons b data ih => exact ih

theorem byteLoop_append (a c : List Byte) (crc : U32) :
    byteLoop (a ++ c) crc = byteLoop c (byteLoop a crc) := by
  rw [byteLoop_eq_foldl, byteLoop_eq_foldl, byteLoop_eq_foldl, List.foldl_append]

theorem crc32Chunk_word (bs : List Byte) (h : bs.length = 8) :
    crc32Chunk crc (word 64 bs) = byteLoop bs crc := by
  have hlength : 8 * bs.length = 64 := by rw [h]
  have hword : shifts (castagnoli.setWidth 64) (8 * bs.length) (crc.setWidth 64 ^^^ word 64 bs) =
      (bs.foldl (feed castagnoli) crc).setWidth 64 :=
    shifts_word (by decide) (by decide) (Nat.le_of_eq hlength)
  rw [hlength] at hword
  rw [crc32Chunk, feed, BitVec.setWidth_eq, hword, byteLoop_eq_foldl]
  exact BitVec.setWidth_setWidth_of_le _ (by decide)

theorem chunkLoop_eq : chunkLoop data crc = byteLoop data crc := by
  fun_induction chunkLoop data crc with
  | case1 crc b₀ b₁ b₂ b₃ b₄ b₅ b₆ b₇ data ih =>
    rw [ih, crc32Chunk_word _ rfl]
    rfl
  | case2 => rfl

theorem crc32c_chunkInstruction (data : List Byte) (previousCrc32 : U32) :
    crc32c .chunkInstruction data previousCrc32 = crc32c .byteInstruction data previousCrc32 := by
  rw [crc32c, crc32c, chunkLoop_eq]

theorem byteInstruction_continues (a c : List Byte) (previousCrc32 : U32) :
    crc32c .byteInstruction c (crc32c .byteInstruction a previousCrc32) =
      crc32c .byteInstruction (a ++ c) previousCrc32 := by
  rw [crc32c, crc32c, crc32c, BitVec.not_not, byteLoop_append]

theorem fallback_disagrees (previousCrc32 : U32) : ∃ data, crc32c .fallback data previousCrc32 ≠
      crc32c .byteInstruction data previousCrc32 := by
  by_cases h : previousCrc32 = 0xFFFFFFFF
  · exact ⟨[1], by rw [h]; decide⟩
  · refine ⟨[], fun heq => h ?_⟩
    rw [crc32c, crc32c, byteLoop, BitVec.not_not, crc32cSW, crcLoop, BitVec.not_not] at heq
    exact heq.symm

end Loops

/-- For every build and every previous value. -/
theorem crc32c_sound_iff (build : Build) (previousCrc32 : U32) :
    Sound build previousCrc32 ↔ build ≠ .fallback := by
  cases build with
  | byteInstruction =>
    refine iff_of_true ⟨fun _ => rfl, ?_⟩ (by decide)
    exact fun a c => byteInstruction_continues a c previousCrc32
  | chunkInstruction =>
    refine iff_of_true ⟨fun data => crc32c_chunkInstruction data previousCrc32, ?_⟩ (by decide)
    intro a c
    rw [crc32c_chunkInstruction, crc32c_chunkInstruction, crc32c_chunkInstruction]
    exact byteInstruction_continues a c previousCrc32
  | fallback =>
    refine iff_of_false (fun h => ?_) fun h => h rfl
    obtain ⟨data, hne⟩ := fallback_disagrees previousCrc32
    exact hne (h.agrees data)

/-- The bytes of `123456789`. -/
def digits : List Byte := [0x31, 0x32, 0x33, 0x34, 0x35, 0x36, 0x37, 0x38, 0x39]

theorem fallback_not_sound : ¬ ∀ build previousCrc32, Sound build previousCrc32 := by
  intro h
  have hagrees := (h .fallback 0xFFFFFFFF).agrees digits
  exact absurd hagrees (by decide +kernel)

end Equilibrium.Crc
