import Mathlib

/-!
# The number of blocks of an inode

`lib/ext2fs/i_block.c`. The count is kept in units of 512 bytes, or of clusters in an inode with
`EXT4_HUGE_FILE_FL`. It has 32 bits, and with the `huge_file` feature 16 more in `l_i_blocks_hi`.

A call should store the exact result, or return `EOVERFLOW` and leave the inode alone
(`E2fsprogs.ExactOrRefused`). Only the upper end of the 32 bits is checked, by `ext2fs_iblk_set`
after it has stored the low bits, and products are taken modulo `2 ^ 64`.
-/

namespace E2fsprogs

/-- The parts of the file system that the functions look at. -/
structure IblkFs where
  /-- The `huge_file` feature. -/
  hugeFile : Bool
  blocksize : ℕ
  clusterRatioBits : ℕ

/-- The parts of `struct ext2_inode`. -/
@[ext]
structure IblkInode where
  iBlocks : ℕ
  lIBlocksHi : ℕ
  /-- `EXT4_HUGE_FILE_FL`. -/
  hugeFileFl : Bool
  iBlocks_lt : iBlocks < 2 ^ 32
  lIBlocksHi_lt : lIBlocksHi < 2 ^ 16
  deriving DecidableEq

/-- `EOVERFLOW`. -/
inductive IblkErr where
  | eoverflow
  deriving DecidableEq

namespace IblkInode

variable (fs : IblkFs) (inode : IblkInode)

/-- The count that is stored. -/
def blocks : ℕ := if fs.hugeFile then inode.iBlocks + inode.lIBlocksHi * 2 ^ 32 else inode.iBlocks

/-- `inode->i_blocks = b & 0xFFFFFFFF`. -/
def setLo (b : ℕ) : IblkInode :=
  { inode with iBlocks := b % 2 ^ 32, iBlocks_lt := Nat.mod_lt _ (Nat.two_pow_pos 32) }

/-- `inode->osd2.linux2.l_i_blocks_hi = b >> 32`. -/
def setHi (b : ℕ) : IblkInode :=
  { inode with
    lIBlocksHi := b / 2 ^ 32 % 2 ^ 16, lIBlocksHi_lt := Nat.mod_lt _ (Nat.two_pow_pos 16) }

/-- The number of blocks in the units of the count, in 64 bits. -/
def scaled (numBlocks : ℕ) : ℕ :=
  let numBlocks := if !fs.hugeFile || !inode.hugeFileFl then
    numBlocks * (fs.blocksize / 512) % 2 ^ 64 else numBlocks
  numBlocks * 2 ^ fs.clusterRatioBits % 2 ^ 64

end IblkInode

/-! ### The functions -/

variable (fs : IblkFs) (inode : IblkInode) (numBlocks : ℕ)

/-- `ext2fs_iblk_add_blocks`. -/
def ext2fsIblkAddBlocks : Option IblkErr × IblkInode :=
  let b := (inode.blocks fs + inode.scaled fs numBlocks) % 2 ^ 64
  if fs.hugeFile then (none, (inode.setHi b).setLo b)
  else if 0xFFFFFFFF < b then (some .eoverflow, inode)
  else (none, inode.setLo b)

/-- `ext2fs_iblk_sub_blocks`. -/
def ext2fsIblkSubBlocks : Option IblkErr × IblkInode :=
  let b := inode.blocks fs
  let numBlocks := inode.scaled fs numBlocks
  if b < numBlocks then (some .eoverflow, inode)
  else if fs.hugeFile then (none, (inode.setHi (b - numBlocks)).setLo (b - numBlocks))
  else (none, inode.setLo (b - numBlocks))

/-- `ext2fs_iblk_set`. -/
def ext2fsIblkSet : Option IblkErr × IblkInode :=
  let b := inode.scaled fs numBlocks
  let inode := inode.setLo b
  if fs.hugeFile then (none, inode.setHi b)
  else if b / 2 ^ 32 ≠ 0 then (some .eoverflow, inode)
  else (none, inode)

/-- The three functions. -/
inductive IblkOp where
  | addBlocks
  | subBlocks
  | set

/-- A call. -/
def IblkOp.call : IblkOp → Option IblkErr × IblkInode
  | .addBlocks => ext2fsIblkAddBlocks fs inode numBlocks
  | .subBlocks => ext2fsIblkSubBlocks fs inode numBlocks
  | .set => ext2fsIblkSet fs inode numBlocks

/-! ### What they should do -/

/-- The number of blocks in the units of the count. -/
def IblkInode.units : ℕ :=
  numBlocks * ((if !fs.hugeFile || !inode.hugeFileFl then fs.blocksize / 512
    else 1) * 2 ^ fs.clusterRatioBits)

/-- The result that a call should store. -/
def IblkOp.exact : IblkOp → ℤ
  | .addBlocks => inode.blocks fs + inode.units fs numBlocks
  | .subBlocks => inode.blocks fs - inode.units fs numBlocks
  | .set => inode.units fs numBlocks

/-- A call stores the exact result and changes nothing else, or it returns `EOVERFLOW` and changes
nothing at all. -/
def IblkOp.ExactOrRefused (op : IblkOp) : Prop :=
  (∃ inode', op.call fs inode numBlocks = (none, inode') ∧
    (inode'.blocks fs : ℤ) = op.exact fs inode numBlocks ∧
    inode'.hugeFileFl = inode.hugeFileFl ∧
      (fs.hugeFile = false → inode'.lIBlocksHi = inode.lIBlocksHi)) ∨
  op.call fs inode numBlocks = (some .eoverflow, inode)

/-- **A call is exact or refused**, and what was added can be taken off again. -/
structure IblkOp.Right (op : IblkOp) : Prop where
  exactOrRefused : op.ExactOrRefused fs inode numBlocks
  restores : op = .addBlocks → ∀ inode', op.call fs inode numBlocks = (none, inode') →
    IblkOp.call fs inode' numBlocks .subBlocks = (none, inode)

/-- The numbers of blocks that a call deals with rightly. -/
def IblkOp.Fits : IblkOp → Prop
  | .addBlocks =>
    if fs.hugeFile then inode.blocks fs + inode.units fs numBlocks < 2 ^ 48
    else inode.blocks fs + inode.units fs numBlocks < 2 ^ 32 ∨
      2 ^ 32 ≤ (inode.blocks fs + inode.units fs numBlocks) % 2 ^ 64
  | .subBlocks =>
    inode.units fs numBlocks < 2 ^ 64 ∨ inode.blocks fs < inode.units fs numBlocks % 2 ^ 64
  | .set =>
    if fs.hugeFile then inode.units fs numBlocks < 2 ^ 48
    else inode.units fs numBlocks < 2 ^ 32 ∨
      2 ^ 32 ≤ inode.units fs numBlocks % 2 ^ 64 ∧ inode.units fs numBlocks % 2 ^ 32 = inode.iBlocks

section BlockCount

variable {fs inode numBlocks} {op : IblkOp} {inode' : IblkInode} {b : ℕ}

/-! ### Storing a count -/

@[simp] theorem IblkInode.iBlocks_setLo (inode : IblkInode) (b : ℕ) :
    (inode.setLo b).iBlocks = b % 2 ^ 32 := rfl

@[simp] theorem IblkInode.lIBlocksHi_setLo (inode : IblkInode) (b : ℕ) :
    (inode.setLo b).lIBlocksHi = inode.lIBlocksHi := rfl

@[simp] theorem IblkInode.lIBlocksHi_setHi (inode : IblkInode) (b : ℕ) :
    (inode.setHi b).lIBlocksHi = b / 2 ^ 32 % 2 ^ 16 := rfl

theorem IblkInode.scaled_eq : inode.scaled fs numBlocks = inode.units fs numBlocks % 2 ^ 64 := by
  rw [scaled, units]
  split_ifs
  · rw [Nat.mod_mul_mod, Nat.mul_assoc]
  · rw [Nat.one_mul]

theorem IblkInode.blocks_of_huge (h : fs.hugeFile = true) (b : ℕ) :
    ((inode.setHi b).setLo b).blocks fs = b % 2 ^ 48 := by
  rw [blocks, if_pos h, iBlocks_setLo, lIBlocksHi_setLo, lIBlocksHi_setHi]
  omega

theorem IblkInode.blocks_of_not_huge (h : fs.hugeFile = false) (b : ℕ) :
    (inode.setLo b).blocks fs = b % 2 ^ 32 := by
  rw [blocks, if_neg (by rw [h]; exact Bool.false_ne_true)]
  rfl

theorem IblkInode.blocks_lt (fs : IblkFs) (inode : IblkInode) : inode.blocks fs < 2 ^ 48 := by
  have hlo := inode.iBlocks_lt
  have hhi := inode.lIBlocksHi_lt
  rw [blocks]
  split_ifs
  all_goals omega

theorem IblkInode.blocks_lt_of_not_huge (h : fs.hugeFile = false) : inode.blocks fs < 2 ^ 32 := by
  rw [blocks, if_neg (by rw [h]; exact Bool.false_ne_true)]
  exact inode.iBlocks_lt

/-- Storing the count an inode had leads back to the inode. -/
theorem IblkInode.store_blocks (h : fs.hugeFile = true) (b : ℕ) :
    (((inode.setHi b).setLo b).setHi (inode.blocks fs)).setLo (inode.blocks fs) = inode := by
  have hlo := inode.iBlocks_lt
  have hhi := inode.lIBlocksHi_lt
  have hblocks : inode.blocks fs = inode.iBlocks + inode.lIBlocksHi * 2 ^ 32 := if_pos h
  refine IblkInode.ext ?_ ?_ rfl
  · rw [iBlocks_setLo, hblocks]
    omega
  · rw [lIBlocksHi_setLo, lIBlocksHi_setHi, hblocks]
    omega

theorem IblkInode.setLo_blocks (h : fs.hugeFile = false) (b : ℕ) :
    (inode.setLo b).setLo (inode.blocks fs) = inode := by
  have hblocks : inode.blocks fs = inode.iBlocks := if_neg (by rw [h]; exact Bool.false_ne_true)
  refine IblkInode.ext ?_ rfl rfl
  rw [iBlocks_setLo, hblocks]
  exact Nat.mod_eq_of_lt inode.iBlocks_lt

/-- A call that returns `0` is exact or wrong. -/
theorem IblkOp.exactOrRefused_of_ok (h : op.call fs inode numBlocks = (none, inode'))
    (hfl : inode'.hugeFileFl = inode.hugeFileFl)
    (hhi : fs.hugeFile = false → inode'.lIBlocksHi = inode.lIBlocksHi) :
    op.ExactOrRefused fs inode numBlocks ↔
    (inode'.blocks fs : ℤ) = op.exact fs inode numBlocks := by
  rw [ExactOrRefused, h]
  constructor
  · rintro (⟨inode'', heq, hexact, -⟩ | heq)
    · cases heq
      exact hexact
    · cases heq
  · exact fun hexact => Or.inl ⟨inode', rfl, hexact, hfl, hhi⟩

/-- A call that returns `EOVERFLOW` leaves the inode alone, or it does not. -/
theorem IblkOp.exactOrRefused_of_refused
    (h : op.call fs inode numBlocks = (some .eoverflow, inode')) :
    op.ExactOrRefused fs inode numBlocks ↔ inode' = inode := by
  rw [ExactOrRefused, h]
  constructor
  · rintro (⟨inode'', heq, -⟩ | heq)
    · cases heq
    · exact congrArg Prod.snd heq
  · rintro rfl
    exact Or.inr rfl

/-! ### The three functions -/

theorem addBlocks_iff : IblkOp.addBlocks.ExactOrRefused fs inode numBlocks ↔
    IblkOp.addBlocks.Fits fs inode numBlocks := by
  have hb := inode.blocks_lt fs
  obtain ⟨x, hx⟩ : ∃ x, x = inode.units fs numBlocks := ⟨_, rfl⟩
  have hcall : IblkOp.addBlocks.call fs inode numBlocks = ext2fsIblkAddBlocks fs inode numBlocks :=
    rfl
  rw [ext2fsIblkAddBlocks, IblkInode.scaled_eq, Nat.add_mod_mod, ← hx] at hcall
  rw [IblkOp.Fits, ← hx]
  cases hhuge : fs.hugeFile with
  | true =>
    rw [hhuge, if_pos rfl] at hcall
    rw [IblkOp.exactOrRefused_of_ok hcall rfl fun h => absurd (hhuge.symm.trans h) (by decide),
      IblkInode.blocks_of_huge hhuge, IblkOp.exact, ← hx, if_pos rfl]
    omega
  | false =>
    have hb' : inode.blocks fs < 2 ^ 32 := IblkInode.blocks_lt_of_not_huge hhuge
    rw [hhuge, if_neg Bool.false_ne_true] at hcall
    rw [if_neg Bool.false_ne_true]
    by_cases hover : 0xFFFFFFFF < (inode.blocks fs + x) % 2 ^ 64
    · rw [if_pos hover] at hcall
      rw [IblkOp.exactOrRefused_of_refused hcall]
      exact iff_of_true rfl (Or.inr hover)
    · rw [if_neg hover] at hcall
      rw [IblkOp.exactOrRefused_of_ok hcall rfl fun _ => rfl, IblkInode.blocks_of_not_huge hhuge,
        IblkOp.exact, ← hx]
      omega

theorem subBlocks_iff : IblkOp.subBlocks.ExactOrRefused fs inode numBlocks ↔
    IblkOp.subBlocks.Fits fs inode numBlocks := by
  have hb := inode.blocks_lt fs
  obtain ⟨x, hx⟩ : ∃ x, x = inode.units fs numBlocks := ⟨_, rfl⟩
  have hcall : IblkOp.subBlocks.call fs inode numBlocks = ext2fsIblkSubBlocks fs inode numBlocks :=
    rfl
  rw [ext2fsIblkSubBlocks, IblkInode.scaled_eq, ← hx] at hcall
  rw [IblkOp.Fits, ← hx]
  by_cases hless : inode.blocks fs < x % 2 ^ 64
  · rw [if_pos hless] at hcall
    rw [IblkOp.exactOrRefused_of_refused hcall]
    exact iff_of_true rfl (Or.inr hless)
  · rw [if_neg hless] at hcall
    cases hhuge : fs.hugeFile with
    | true =>
      rw [hhuge, if_pos rfl] at hcall
      rw [IblkOp.exactOrRefused_of_ok hcall rfl fun h => absurd (hhuge.symm.trans h) (by decide),
        IblkInode.blocks_of_huge hhuge, IblkOp.exact, ← hx]
      omega
    | false =>
      have hb' : inode.blocks fs < 2 ^ 32 := IblkInode.blocks_lt_of_not_huge hhuge
      rw [hhuge, if_neg Bool.false_ne_true] at hcall
      rw [IblkOp.exactOrRefused_of_ok hcall rfl fun _ => rfl, IblkInode.blocks_of_not_huge hhuge,
        IblkOp.exact, ← hx]
      omega

theorem iblkSet_iff :
    IblkOp.set.ExactOrRefused fs inode numBlocks ↔ IblkOp.set.Fits fs inode numBlocks := by
  obtain ⟨x, hx⟩ : ∃ x, x = inode.units fs numBlocks := ⟨_, rfl⟩
  have hcall : IblkOp.set.call fs inode numBlocks = ext2fsIblkSet fs inode numBlocks := rfl
  rw [ext2fsIblkSet, IblkInode.scaled_eq, ← hx] at hcall
  rw [IblkOp.Fits, ← hx]
  cases hhuge : fs.hugeFile with
  | true =>
    rw [hhuge, if_pos rfl] at hcall
    have hblocks : ((inode.setLo (x % 2 ^ 64)).setHi (x % 2 ^ 64)).blocks fs =
        x % 2 ^ 64 % 2 ^ 48 :=
      IblkInode.blocks_of_huge hhuge (x % 2 ^ 64)
    rw [IblkOp.exactOrRefused_of_ok hcall rfl fun h => absurd (hhuge.symm.trans h) (by decide),
      hblocks, IblkOp.exact, ← hx, if_pos rfl]
    omega
  | false =>
    rw [hhuge, if_neg Bool.false_ne_true] at hcall
    rw [if_neg Bool.false_ne_true]
    by_cases hover : x % 2 ^ 64 / 2 ^ 32 ≠ 0
    · -- the low bits are stored before the call is refused
      rw [if_pos hover] at hcall
      have hsame : inode.setLo (x % 2 ^ 64) = inode ↔ x % 2 ^ 32 = inode.iBlocks := by
        rw [IblkInode.ext_iff]
        change x % 2 ^ 64 % 2 ^ 32 = inode.iBlocks ∧ _ ∧ _ ↔ _
        rw [Nat.mod_mod_of_dvd _ (by decide)]
        exact ⟨fun h => h.1, fun h => ⟨h, rfl, rfl⟩⟩
      rw [IblkOp.exactOrRefused_of_refused hcall, hsame]
      omega
    · rw [if_neg hover] at hcall
      rw [IblkOp.exactOrRefused_of_ok hcall rfl fun _ => rfl, IblkInode.blocks_of_not_huge hhuge,
        IblkOp.exact, ← hx]
      omega

/-- What an exact call has added is taken off again. -/
theorem subBlocks_of_added (hfits : IblkOp.addBlocks.Fits fs inode numBlocks)
    (hcall : IblkOp.addBlocks.call fs inode numBlocks = (none, inode')) :
    IblkOp.subBlocks.call fs inode' numBlocks = (none, inode) := by
  have hb := inode.blocks_lt fs
  obtain ⟨x, hx⟩ : ∃ x, x = inode.units fs numBlocks := ⟨_, rfl⟩
  change ext2fsIblkAddBlocks fs inode numBlocks = _ at hcall
  change ext2fsIblkSubBlocks fs inode' numBlocks = _
  rw [ext2fsIblkAddBlocks, IblkInode.scaled_eq, Nat.add_mod_mod, ← hx] at hcall
  rw [IblkOp.Fits, ← hx] at hfits
  rw [ext2fsIblkSubBlocks, IblkInode.scaled_eq]
  cases hhuge : fs.hugeFile with
  | true =>
    rw [hhuge, if_pos rfl] at hcall hfits
    cases hcall
    have hunits : ((inode.setHi ((inode.blocks fs + x) % 2 ^ 64)).setLo
      ((inode.blocks fs + x) % 2 ^ 64)).units fs
        numBlocks = x := hx.symm
    rw [hunits, IblkInode.blocks_of_huge hhuge, if_neg (by omega), if_pos rfl,
      show (inode.blocks fs + x) % 2 ^ 64 % 2 ^ 48 - x % 2 ^ 64 = inode.blocks fs by
        omega, IblkInode.store_blocks hhuge]
  | false =>
    have hb' : inode.blocks fs < 2 ^ 32 := IblkInode.blocks_lt_of_not_huge hhuge
    rw [hhuge, if_neg Bool.false_ne_true] at hcall hfits
    by_cases hover : 0xFFFFFFFF < (inode.blocks fs + x) % 2 ^ 64
    · rw [if_pos hover] at hcall
      cases hcall
    · rw [if_neg hover] at hcall
      cases hcall
      have hunits : (inode.setLo ((inode.blocks fs + x) % 2 ^ 64)).units fs numBlocks = x := hx.symm
      rw [hunits, IblkInode.blocks_of_not_huge hhuge, if_neg (by omega), if_neg Bool.false_ne_true,
        show (inode.blocks fs + x) % 2 ^ 64 % 2 ^ 32 - x % 2 ^ 64 = inode.blocks fs by
          omega, IblkInode.setLo_blocks hhuge]

theorem IblkOp.exactOrRefused_iff (op : IblkOp) :
    op.ExactOrRefused fs inode numBlocks ↔ op.Fits fs inode numBlocks := by
  cases op with
  | addBlocks => exact addBlocks_iff
  | subBlocks => exact subBlocks_iff
  | set => exact iblkSet_iff

/-- **When a call is exact or refused.** -/
theorem iblkRight_iff (fs : IblkFs) (inode : IblkInode) (numBlocks : ℕ) (op : IblkOp) :
    op.Right fs inode numBlocks ↔ op.Fits fs inode numBlocks := by
  constructor
  · exact fun h => op.exactOrRefused_iff.mp h.exactOrRefused
  · refine fun h => ⟨op.exactOrRefused_iff.mpr h, ?_⟩
    rintro rfl inode' hcall
    exact subBlocks_of_added h hcall

end BlockCount

/-- An inode that has as many blocks as can be counted. -/
def fullInode : IblkInode := ⟨2 ^ 32 - 1, 2 ^ 16 - 1, false, by decide, by decide⟩

/-- One block more, and the count starts from the beginning. -/
theorem not_iblkRight_full : ¬IblkOp.addBlocks.Right ⟨true, 4096, 0⟩ fullInode 1 := by
  intro h
  have hfits := addBlocks_iff.mp h.exactOrRefused
  exact absurd hfits
    (by decide : ¬fullInode.blocks ⟨true, 4096, 0⟩ + fullInode.units ⟨true, 4096, 0⟩ 1 < 2 ^ 48)

end E2fsprogs
