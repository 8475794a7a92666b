import Mathlib

/-!
# The two checksums of the journal

`E2fsprogs.ext2fsCrc32cLe` is the reflected CRC-32C and `E2fsprogs.ext2fsCrc32Be`
the unreflected Ethernet CRC-32, both over 32-bit words and both without a final
complement: the library leaves that to the caller. The C code computes them eight
bytes at a time from tables; what the tables hold is the bit-at-a-time definition
written out here, which is the `CRC_LE_BITS == 1` and `CRC_BE_BITS == 1` branch of
the same file.

Hardly anything about them is used anywhere: that they stay 32-bit words
(`E2fsprogs.ext2fsCrc32cLe_lt`, `E2fsprogs.ext2fsCrc32Be_lt`), so that what is stored in
a field of four bytes is the whole of a checksum; and, for the one checksum that is
evaluated, how to go over the zeroes at the end of a block
(`E2fsprogs.foldl_crc32BeByte_zeros`).
-/

namespace E2fsprogs

/-- One bit of the reflected CRC: shift right, and subtract the polynomial when
a one falls out. -/
def crc32LeBit (poly crc : ℕ) : ℕ :=
  if crc % 2 = 1 then (crc / 2) ^^^ poly else crc / 2

/-- One byte of the reflected CRC. -/
def crc32LeByte (poly crc : ℕ) (p : UInt8) : ℕ :=
  Nat.repeat (crc32LeBit poly) 8 (crc ^^^ p.toNat)

/-- One bit of the unreflected CRC: shift left in 32 bits, and subtract the
polynomial when a one falls out. -/
def crc32BeBit (poly crc : ℕ) : ℕ :=
  if 2 ^ 31 ≤ crc then (crc * 2 % 2 ^ 32) ^^^ poly else crc * 2 % 2 ^ 32

/-- One byte of the unreflected CRC. -/
def crc32BeByte (poly crc : ℕ) (p : UInt8) : ℕ :=
  Nat.repeat (crc32BeBit poly) 8 (crc ^^^ (p.toNat * 2 ^ 24))

/-- `CRC32C_POLY_LE`. -/
def crc32cPolyLe : ℕ := 0x82F63B78

/-- `CRCPOLY_BE`. -/
def crcPolyBe : ℕ := 0x04c11db7

/-- CRC-32C of a byte string, continued from `crc`. -/
def ext2fsCrc32cLe (crc : ℕ) (p : List UInt8) : ℕ :=
  p.foldl (crc32LeByte crc32cPolyLe) crc

/-- Big-endian CRC-32 of a byte string, continued from `crc`. -/
def ext2fsCrc32Be (crc : ℕ) (p : List UInt8) : ℕ :=
  p.foldl (crc32BeByte crcPolyBe) crc

/-- One zero byte after another. A checksum that has become zero stays zero, and looking
for that evaluates the checksum at each byte. -/
def crc32BeZeros (poly : ℕ) : ℕ → ℕ → ℕ
  | 0, crc => crc
  | n + 1, crc => if crc = 0 then 0 else crc32BeZeros poly n (crc32BeByte poly crc 0)

theorem foldl_crc32BeByte_zeros (poly n : ℕ) : ∀ crc,
    (List.replicate n (0 : UInt8)).foldl (crc32BeByte poly) crc = crc32BeZeros poly n crc := by
  have hbyte : crc32BeByte poly 0 0 = 0 := by simp [crc32BeByte, Nat.repeat, crc32BeBit]
  have hzero : ∀ n, (List.replicate n (0 : UInt8)).foldl (crc32BeByte poly) 0 = 0 := by
    intro n
    induction n with
    | zero => rfl
    | succ n ih => rw [List.replicate_succ, List.foldl_cons, hbyte, ih]
  induction n with
  | zero => intro crc; rfl
  | succ n ih =>
    intro crc
    rw [List.replicate_succ, crc32BeZeros]
    split
    · next h =>
      rw [h, List.foldl_cons, hbyte, hzero]
    · rw [List.foldl_cons, ih]

/-! ### Checksums are words -/

theorem crc32LeBit_lt {poly crc : ℕ} (hp : poly < 2 ^ 32) (h : crc < 2 ^ 32) :
    crc32LeBit poly crc < 2 ^ 32 := by
  rw [crc32LeBit]
  split
  · exact Nat.xor_lt_two_pow (by omega) hp
  · omega

theorem crc32BeBit_lt {poly crc : ℕ} (hp : poly < 2 ^ 32) : crc32BeBit poly crc < 2 ^ 32 := by
  rw [crc32BeBit]
  split
  · exact Nat.xor_lt_two_pow (Nat.mod_lt _ (by norm_num)) hp
  · exact Nat.mod_lt _ (by norm_num)

theorem crc32LeByte_lt {poly crc : ℕ} (hp : poly < 2 ^ 32) (h : crc < 2 ^ 32) (b : UInt8) :
    crc32LeByte poly crc b < 2 ^ 32 := by
  have hb : b.toNat < 2 ^ 32 := b.toNat_lt.trans (by norm_num)
  have h0 : crc ^^^ b.toNat < 2 ^ 32 := Nat.xor_lt_two_pow h hb
  rw [crc32LeByte]
  generalize 8 = n
  induction n with
  | zero => exact h0
  | succ n ih => exact crc32LeBit_lt hp ih

theorem crc32BeByte_lt {poly : ℕ} (hp : poly < 2 ^ 32) (crc : ℕ) (b : UInt8) :
    crc32BeByte poly crc b < 2 ^ 32 := by
  simp only [crc32BeByte, Nat.repeat]
  exact crc32BeBit_lt hp

theorem ext2fsCrc32cLe_lt {crc : ℕ} (h : crc < 2 ^ 32) (p : List UInt8) :
    ext2fsCrc32cLe crc p < 2 ^ 32 := by
  induction p generalizing crc with
  | nil => exact h
  | cons b p ih =>
    rw [ext2fsCrc32cLe, List.foldl_cons]
    exact ih (crc32LeByte_lt (by norm_num [crc32cPolyLe]) h b)

theorem ext2fsCrc32Be_lt {crc : ℕ} (h : crc < 2 ^ 32) (p : List UInt8) :
    ext2fsCrc32Be crc p < 2 ^ 32 := by
  induction p generalizing crc with
  | nil => exact h
  | cons b p ih =>
    rw [ext2fsCrc32Be, List.foldl_cons]
    exact ih (crc32BeByte_lt (by norm_num [crcPolyBe]) crc b)

end E2fsprogs
