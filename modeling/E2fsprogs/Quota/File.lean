import Mathlib

/-!
# Quota files

`lib/support/quotaio_tree.h`, `quotaio_v2.h`. A quota file is made of blocks of 1024 bytes. The
first one has a header and an info block, and the second one is the root of a tree of depth
four. An index block has 256 references to blocks of the next level; a data block has a header
of 16 bytes, and then as many entries as fit.

Everything in such a file lies at a multiple of four bytes, so that a file is a sequence of
little-endian words of 32 bits here, and a block has 256 of them. What a byte offset in the file
comes out as, in the `int` and `unsigned int` of each place of `lib/support/quotaio_tree.c`, is
in the last part (`E2fsprogs.Quota.offsets_exact_iff`).
-/

namespace E2fsprogs

namespace Quota

/-- `QT_TREEOFF`, the block of the root. -/
abbrev qtTreeoff : ℕ := 1

/-- `QT_BLKSIZE`. -/
abbrev qtBlksize : ℕ := 1024

/-! ### Blocks -/

/-- A block that is in memory, by words. -/
abbrev Buf := Fin 256 → ℕ

/-- The words of a file. There are zeroes behind its end, which is what `read_blk` fills up a
short block with. -/
abbrev Words := ℕ → ℕ

/-- The word of a block at an index, which may come from arithmetic. -/
def Buf.word (buf : Buf) (k : ℕ) : ℕ := if h : k < 256 then buf ⟨k, h⟩ else 0

/-- `memset(buf, 0, QT_BLKSIZE)` -/
def zeroBuf : Buf := fun _ => 0

/-- `memset` of `n` words to zero, from a word on. -/
def Buf.clear (buf : Buf) (k n : ℕ) : Buf := fun i => if k ≤ i ∧ i < k + n then 0 else buf i

/-- `dqdh_next_free` -/
def Buf.nextFree (buf : Buf) : ℕ := buf 0

/-- `dqdh_prev_free` -/
def Buf.prevFree (buf : Buf) : ℕ := buf 1

/-- `dqdh_entries`, which has 16 bits; `dqdh_pad1` is in the same word. -/
def Buf.entries (buf : Buf) : ℕ := buf 2 % 2 ^ 16

def Buf.setNextFree (buf : Buf) (blk : ℕ) : Buf := Function.update buf 0 blk

def Buf.setPrevFree (buf : Buf) (blk : ℕ) : Buf := Function.update buf 1 blk

def Buf.setEntries (buf : Buf) (n : ℕ) : Buf :=
  Function.update buf 2 (buf 2 / 2 ^ 16 * 2 ^ 16 + n % 2 ^ 16)

/-! ### Entries -/

/-- `struct util_dqblk`. -/
structure Dqblk where
  ihardlimit : UInt64
  isoftlimit : UInt64
  curinodes : UInt64
  bhardlimit : UInt64
  bsoftlimit : UInt64
  curspace : UInt64
  btime : UInt64
  itime : UInt64
  deriving DecidableEq, Repr

/-- A record that is all zero, as `get_empty_dquot` has it. -/
def Dqblk.empty : Dqblk := ⟨0, 0, 0, 0, 0, 0, 0, 0⟩

/-- The two formats of an entry, `V2_VERSION_R0` and `V2_VERSION_R1`. -/
inductive Fmt
  | r0
  | r1
  deriving DecidableEq, Repr

/-- `dqi_entry_size`: the size of `struct v2r0_disk_dqblk` and `struct v2r1_disk_dqblk`. -/
def Fmt.entrySize : Fmt → ℕ
  | .r0 => 48
  | .r1 => 72

/-- The number of words of an entry. -/
def Fmt.entryWords (fmt : Fmt) : ℕ := fmt.entrySize / 4

/-- `qtree_dqstr_in_blk` -/
def Fmt.dqstrInBlk (fmt : Fmt) : ℕ := (qtBlksize - 16) / fmt.entrySize

/-- `qtree_entry_unused` -/
def entryUnused (disk : List ℕ) : Bool := disk.all (· = 0)

/-- The two words of `ext2fs_cpu_to_le64`. -/
def le64Words (v : UInt64) : List ℕ := [v.toNat % 2 ^ 32, v.toNat / 2 ^ 32]

/-- `ext2fs_le64_to_cpu` -/
def ofLe64 (lo hi : ℕ) : UInt64 := UInt64.ofNat (lo + 2 ^ 32 * hi)

/-- The fields of an entry, as `v2r0_mem2diskdqblk` and `v2r1_mem2diskdqblk` store them, with a
time for inodes. -/
def Fmt.store (fmt : Fmt) (id : UInt32) (m : Dqblk) (itime : UInt64) : List ℕ :=
  match fmt with
  | .r0 => [id.toNat, m.ihardlimit.toNat % 2 ^ 32, m.isoftlimit.toNat % 2 ^ 32,
      m.curinodes.toNat % 2 ^ 32, m.bhardlimit.toNat % 2 ^ 32, m.bsoftlimit.toNat % 2 ^ 32] ++
      le64Words m.curspace ++ le64Words m.btime ++ le64Words itime
  | .r1 => [id.toNat, 0] ++ le64Words m.ihardlimit ++ le64Words m.isoftlimit ++
      le64Words m.curinodes ++ le64Words m.bhardlimit ++ le64Words m.bsoftlimit ++
      le64Words m.curspace ++ le64Words m.btime ++ le64Words itime

/-- `v2r0_mem2diskdqblk`, `v2r1_mem2diskdqblk`: an entry that would be all zero, and so would
count as unused, gets a time. -/
def Fmt.mem2disk (fmt : Fmt) (id : UInt32) (m : Dqblk) : List ℕ :=
  if entryUnused (fmt.store id m m.itime) then fmt.store id m 1 else fmt.store id m m.itime

/-- The fields of an entry of `struct v2r0_disk_dqblk` and `struct v2r1_disk_dqblk`. -/
def Fmt.load (fmt : Fmt) (disk : List ℕ) : Dqblk :=
  let w (k : ℕ) : ℕ := disk.getD k 0
  match fmt with
  | .r0 => ⟨.ofNat (w 1), .ofNat (w 2), .ofNat (w 3), .ofNat (w 4), .ofNat (w 5),
      ofLe64 (w 6) (w 7), ofLe64 (w 8) (w 9), ofLe64 (w 10) (w 11)⟩
  | .r1 => ⟨ofLe64 (w 2) (w 3), ofLe64 (w 4) (w 5), ofLe64 (w 6) (w 7), ofLe64 (w 8) (w 9),
      ofLe64 (w 10) (w 11), ofLe64 (w 12) (w 13), ofLe64 (w 14) (w 15), ofLe64 (w 16) (w 17)⟩

/-- `v2r0_disk2memdqblk`, `v2r1_disk2memdqblk`: the record of an entry. One with nothing but a
time of one stands for one that is all zero. -/
def Fmt.disk2mem (fmt : Fmt) (disk : List ℕ) : Dqblk :=
  if disk = fmt.store 0 .empty 1 then { fmt.load disk with itime := 0 } else fmt.load disk

/-- `dqb_id` of an entry. -/
def entryId (disk : List ℕ) : ℕ := disk.getD 0 0

/-- `v2r0_is_id`, `v2r1_is_id` -/
def isId (disk : List ℕ) (id : UInt32) : Bool :=
  !entryUnused disk && entryId disk = id.toNat

/-- The `i`-th entry of a data block. -/
def Buf.entry (buf : Buf) (fmt : Fmt) (i : ℕ) : List ℕ :=
  (List.range fmt.entryWords).map fun j => buf.word (4 + i * fmt.entryWords + j)

/-! ### Offsets -/

/-- `blk << QT_BLKSIZE_BITS` of an `unsigned int`, in `read_blk`, `write_blk`. -/
def blkOff (blk : ℕ) : ℕ := blk * 1024 % 2 ^ 32

/-- The offset of an entry as `find_block_dqentry` and `report_block` compute it: the block is an
`unsigned int`, and the sum is taken in a `size_t`. -/
def blockDqentryOff (fmt : Fmt) (blk i : ℕ) : ℕ :=
  (blkOff blk + 16 + i * fmt.entrySize % 2 ^ 32) % 2 ^ 64

/-- An `int` that is converted to a `size_t`, by its bits. -/
def signExtend (n : ℕ) : ℕ := if n < 2 ^ 31 then n else n + (2 ^ 64 - 2 ^ 32)

/-- The offset of an entry as `find_free_dqentry` computes it, where the block is an `int`. -/
def freeDqentryOff (fmt : Fmt) (blk i : ℕ) : ℕ :=
  (signExtend (blkOff blk) + 16 + i * fmt.entrySize % 2 ^ 32) % 2 ^ 64

/-- The value of an `ext2_loff_t` or a `long long`, by its bits. -/
def toLoff (n : ℕ) : ℤ := Int.bmod n (2 ^ 64)

/-- Reads one block. -/
def readBlk (file : Words) (blk : ℕ) : Buf := fun i => file (blkOff blk / 4 + i)

/-- Writes one block, where the file has it or can be given it. -/
def writeBlk (file : Words) (blk : ℕ) (buf : Buf) : Words := fun a =>
  if blkOff blk / 4 ≤ a ∧ a < blkOff blk / 4 + 256 then buf.word (a - blkOff blk / 4) else file a

/-- `e2fs_read` of an entry. -/
def readEntry (file : Words) (fmt : Fmt) (off : ℕ) : List ℕ :=
  (List.range fmt.entryWords).map fun j => file (off / 4 + j)

/-- `e2fs_write` of an entry. -/
def writeEntry (file : Words) (off : ℕ) (disk : List ℕ) : Words := fun a =>
  if off / 4 ≤ a ∧ a < off / 4 + disk.length then disk.getD (a - off / 4) 0 else file a

/-! ### Where offsets are exact

Each of the products is taken in 32 bits. The sums are taken in 64 bits, so that they are right
where the products are; but an `int` that is negative comes out at the far end of the file. -/

variable {fmt : Fmt} {blk i n : ℕ}

theorem bmod_of_lt_half {m : ℕ} (h : n < m) : Int.bmod n (2 * m) = n := by
  have hmod : (n : ℤ) % (2 * m : ℕ) = n := by
    rw [← Int.natCast_emod, Nat.mod_eq_of_lt (by omega)]
  rw [Int.bmod_def, hmod, if_pos (by omega)]

theorem bmod_neg_of_le {m : ℕ} (h : m ≤ n) (h' : n < 2 * m) : Int.bmod n (2 * m) < 0 := by
  have hmod : (n : ℤ) % (2 * m : ℕ) = n := by
    rw [← Int.natCast_emod, Nat.mod_eq_of_lt h']
  rw [Int.bmod_def, hmod, if_neg (by omega)]
  omega

theorem toLoff_of_lt (h : n < 2 ^ 63) : toLoff n = n := by
  have hhalf := @bmod_of_lt_half n (2 ^ 63) h
  rwa [show 2 * 2 ^ 63 = 2 ^ 64 from rfl] at hhalf

theorem toLoff_neg (h : 2 ^ 63 ≤ n) (h' : n < 2 ^ 64) : toLoff n < 0 := by
  have hneg := @bmod_neg_of_le n (2 ^ 63) h
  rw [show 2 * 2 ^ 63 = 2 ^ 64 from rfl] at hneg
  exact hneg h'

theorem blkOff_lt : blkOff blk < 2 ^ 32 := Nat.mod_lt _ (by norm_num)

theorem blkOff_mod : blkOff blk % 1024 = 0 := by
  rw [blkOff]
  omega

theorem blkOff_of_lt (h : blk < 2 ^ 22) : blkOff blk = blk * 1024 :=
  Nat.mod_eq_of_lt (by omega)

/-- All entries of a block end in it. -/
theorem entry_end_le (hi : i < fmt.dqstrInBlk) : 16 + (i + 1) * fmt.entrySize ≤ 1024 := by
  cases fmt <;> simp only [Fmt.dqstrInBlk, Fmt.entrySize, qtBlksize] at hi ⊢ <;> omega

/-- The offset of a block is exact in the first 2^22 blocks. -/
theorem blkOff_exact_iff : toLoff (blkOff blk) = blk * 1024 ↔ blk < 2 ^ 22 := by
  have hlt := @blkOff_lt blk
  rw [toLoff_of_lt (by omega)]
  constructor
  · intro h
    omega
  · intro h
    rw [blkOff_of_lt h, Nat.cast_mul]
    rfl

theorem mul_entrySize_lt (hi : i < fmt.dqstrInBlk) : i * fmt.entrySize + 16 < 1024 := by
  have hend := entry_end_le hi
  have hpos : 0 < fmt.entrySize := by cases fmt <;> simp [Fmt.entrySize]
  rw [Nat.add_mul] at hend
  omega

/-- The offset of an entry is exact in the first 2^22 blocks, where the block is unsigned. -/
theorem blockDqentryOff_exact_iff (hi : i < fmt.dqstrInBlk) :
    toLoff (blockDqentryOff fmt blk i) = blk * 1024 + (16 + i * fmt.entrySize : ℕ) ↔
      blk < 2 ^ 22 := by
  have hlt := @blkOff_lt blk
  have hend := mul_entrySize_lt hi
  have hval : blockDqentryOff fmt blk i = blkOff blk + 16 + i * fmt.entrySize := by
    rw [blockDqentryOff, Nat.mod_eq_of_lt (by omega), Nat.mod_eq_of_lt (by omega)]
  rw [hval, toLoff_of_lt (by omega)]
  constructor
  · intro h
    omega
  · intro h
    rw [blkOff_of_lt h]
    omega

/-- The offset of an entry is exact in the first 2^21 blocks, where the block is an `int`. -/
theorem freeDqentryOff_exact_iff (hi : i < fmt.dqstrInBlk) :
    toLoff (freeDqentryOff fmt blk i) = blk * 1024 + (16 + i * fmt.entrySize : ℕ) ↔
      blk < 2 ^ 21 := by
  have hlt := @blkOff_lt blk
  have hmod := @blkOff_mod blk
  have hend := mul_entrySize_lt hi
  rw [freeDqentryOff, @Nat.mod_eq_of_lt (i * fmt.entrySize) (2 ^ 32) (by omega), signExtend]
  split
  · next hpos =>
    rw [Nat.mod_eq_of_lt (by omega), toLoff_of_lt (by omega)]
    constructor
    · intro h
      omega
    · intro h
      rw [blkOff_of_lt (by omega)]
      omega
  · next hneg =>
    -- the sign bit is set: the offset is negative, and the block is past the bound
    rw [Nat.mod_eq_of_lt (by omega)]
    have := @toLoff_neg (blkOff blk + (2 ^ 64 - 2 ^ 32) + 16 + i * fmt.entrySize) (by omega)
      (by omega)
    constructor
    · intro h
      omega
    · intro h
      rw [blkOff_of_lt (by omega)] at hneg
      omega

/-- **All offsets of a block are exact**: of the block itself, where it is read or written, and
of its entries, where a free one is taken, and where one is found or reported. -/
structure OffsetsExact (fmt : Fmt) (blk : ℕ) : Prop where
  block : toLoff (blkOff blk) = blk * 1024
  free : ∀ i < fmt.dqstrInBlk,
    toLoff (freeDqentryOff fmt blk i) = blk * 1024 + (16 + i * fmt.entrySize : ℕ)
  found : ∀ i < fmt.dqstrInBlk,
    toLoff (blockDqentryOff fmt blk i) = blk * 1024 + (16 + i * fmt.entrySize : ℕ)

/-- All offsets are exact in a file of that many blocks, and no two blocks are at one offset. -/
def OffsetsNeverOverflow (fmt : Fmt) (dqiBlocks : UInt32) : Prop :=
  ∀ blk < dqiBlocks.toNat, OffsetsExact fmt blk ∧
    ∀ blk' < dqiBlocks.toNat, blkOff blk' = blkOff blk → blk' = blk

theorem offsetsExact_iff : OffsetsExact fmt blk ↔ blk < 2 ^ 21 := by
  have hcap : 0 < fmt.dqstrInBlk := by cases fmt <;> decide
  constructor
  · intro h
    exact (freeDqentryOff_exact_iff hcap).mp (h.free 0 hcap)
  · intro h
    exact ⟨blkOff_exact_iff.mpr (by omega), fun i hi => (freeDqentryOff_exact_iff hi).mpr h,
      fun i hi => (blockDqentryOff_exact_iff hi).mpr (by omega)⟩

/-- **The offsets are right up to a size of 2^31 bytes**, which is where the `int` of
`find_free_dqentry` ends. -/
theorem offsetsNeverOverflow_iff (fmt : Fmt) (dqiBlocks : UInt32) :
    OffsetsNeverOverflow fmt dqiBlocks ↔ dqiBlocks.toNat ≤ 2 ^ 21 := by
  constructor
  · intro h
    by_contra hlarge
    exact absurd (offsetsExact_iff.mp (h (2 ^ 21) (by omega)).1) (lt_irrefl _)
  · intro h blk hblk
    refine ⟨offsetsExact_iff.mpr (by omega), fun blk' hblk' heq => ?_⟩
    rw [blkOff_of_lt (by omega), blkOff_of_lt (by omega)] at heq
    omega

/-- In a file of 2^21 + 1 blocks, the last block is too far. -/
theorem not_offsetsNeverOverflow : ¬ OffsetsNeverOverflow .r1 2097153 := by
  intro h
  have hoff := (h 2097152 (by decide)).1.free 0 (by decide)
  exact absurd hoff (by decide)

end Quota

end E2fsprogs
